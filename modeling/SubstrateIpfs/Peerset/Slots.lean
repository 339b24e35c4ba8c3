-- SUMMARY: The peers of a node and the slots that they occupy: the counters are always exact.
import Mathlib

/-!
# Slots of the peer set

A peer is connected to us in some of the sets, by an ingoing or an outgoing connection. It occupies
a slot of the set, unless it is one of the nodes for which none is needed. That may change while it
is connected.
-/

namespace Peerset

open Function

inductive Direction where
  | incoming
  | outgoing
  deriving DecidableEq

/-- Whether we are connected to a node in the context of a set. -/
inductive MembershipState where
  | notMember
  | connected (direction : Direction)
  | notConnected
  deriving DecidableEq

/-- A failed assertion, or a counter that leaves its range. -/
inductive Panic where
  | overflow
  | underflow
  | inconsistent

/-! ## The state -/

structure SetInfo (P : Type) where
  /-- The number of slots that are occupied. -/
  num : Direction → ℕ
  max : Direction → ℕ
  noSlotNodes : Finset P

structure Node (n : ℕ) where
  sets : Fin n → MembershipState
  reputation : ℤ

structure PeersState (P : Type) (n : ℕ) where
  nodes : P → Option (Node n)
  sets : Fin n → SetInfo P

inductive ReputationChange where
  | set (value : ℤ)
  | add (modifier : ℤ)

def ReputationChange.apply (reputation : ℤ) : ReputationChange → ℤ
  | set value => value
  | add modifier => max (-2 ^ 31) (min (2 ^ 31 - 1) (reputation + modifier))

section
variable {P : Type} {n : ℕ}

def Node.new : Node n := ⟨fun _ => .notMember, 0⟩

def SetInfo.release (info : SetInfo P) (d : Direction) : Except Panic (SetInfo P) :=
  if info.num d = 0 then .error .underflow
  else .ok { info with num := update info.num d (info.num d - 1) }

def SetInfo.occupy (info : SetInfo P) (d : Direction) : Except Panic (SetInfo P) :=
  if info.num d = 2 ^ 32 - 1 then .error .overflow
  else .ok { info with num := update info.num d (info.num d + 1) }

namespace PeersState

def new (config : Fin n → Direction → ℕ) : PeersState P n :=
  ⟨fun _ => none, fun set => ⟨fun _ => 0, config set, ∅⟩⟩

variable [DecidableEq P] (s : PeersState P n) (set : Fin n) (p : P)

def membership : MembershipState := ((s.nodes p).getD .new).sets set

def reputation : ℤ := ((s.nodes p).getD .new).reputation

def putNode (node : Option (Node n)) : PeersState P n := { s with nodes := update s.nodes p node }

def putInfo (info : SetInfo P) : PeersState P n := { s with sets := update s.sets set info }

/-- Writes the state of a node in a set. -/
def putMember (node : Node n) (m : MembershipState) : PeersState P n :=
  s.putNode p (some { node with sets := update node.sets set m })

/-- Writes a node, unless it has no reputation and is in no set. -/
def putUnlessIdle (node : Node n) : PeersState P n :=
  s.putNode p (if node.reputation = 0 ∧ ∀ set, node.sets set = .notMember then none else some node)

/-! ## Operations -/

def addNoSlotNode : Except Panic (PeersState P n) :=
  if p ∈ (s.sets set).noSlotNodes then .ok s
  else do
    let info := { s.sets set with noSlotNodes := insert p (s.sets set).noSlotNodes }
    match s.membership set p with
    | .connected d => return s.putInfo set (← info.release d)
    | _ => return s.putInfo set info

def removeNoSlotNode : Except Panic (PeersState P n) :=
  if p ∈ (s.sets set).noSlotNodes then do
    let info := { s.sets set with noSlotNodes := (s.sets set).noSlotNodes.erase p }
    match s.membership set p with
    | .connected d => return s.putInfo set (← info.occupy d)
    | _ => return s.putInfo set info
  else .ok s

def discover : PeersState P n := s.putMember set p ((s.nodes p).getD .new) .notConnected

/-- Switches a connected peer to not connected. -/
def disconnect : Except Panic (PeersState P n) :=
  match s.nodes p with
  | none => .error .inconsistent
  | some node => do
    let info ←
      if p ∈ (s.sets set).noSlotNodes then .ok (s.sets set)
      else match node.sets set with
        | .connected d => (s.sets set).release d
        | _ => .error .inconsistent
    return (s.putInfo set info).putMember set p node .notConnected

/-- `try_outgoing` and `try_accept_incoming`, and whether the peer is accepted. -/
def tryConnect (d : Direction) : Except Panic (Bool × PeersState P n) :=
  if (s.sets set).max d ≤ (s.sets set).num d ∧ p ∉ (s.sets set).noSlotNodes then .ok (false, s)
  else match s.nodes p with
    | none => .error .inconsistent
    | some node => do
      let info ←
        if p ∈ (s.sets set).noSlotNodes then .ok (s.sets set) else (s.sets set).occupy d
      return (true, (s.putInfo set info).putMember set p node (.connected d))

def forgetPeer : Except Panic (PeersState P n) :=
  match s.nodes p with
  | none => .error .inconsistent
  | some node =>
    if node.sets set = .notMember then .error .inconsistent
    else .ok (s.putUnlessIdle p { node with sets := update node.sets set .notMember })

/-- Changes through `peer_reputation`, until it is dropped. -/
def changeReputation (changes : List ReputationChange) : PeersState P n :=
  let node := (s.nodes p).getD .new
  s.putUnlessIdle p { node with reputation := changes.foldl ReputationChange.apply node.reputation }

/-- `add_reputation` of a connected peer. -/
def addReputation (modifier : ℤ) : Except Panic (PeersState P n) :=
  match s.nodes p with
  | none => .error .inconsistent
  | some node =>
    .ok (s.putNode p (some { node with
      reputation := ReputationChange.apply node.reputation (.add modifier) }))

end PeersState

/-- What is done with a peer in a set. -/
inductive Op where
  | discover
  | tryConnect (d : Direction)
  | disconnect
  | forgetPeer
  | addReputation (modifier : ℤ)
  | addNoSlotNode
  | removeNoSlotNode

inductive Call (P : Type) (n : ℕ) where
  | peer (set : Fin n) (p : P) (op : Op)
  | reputation (p : P) (changes : List ReputationChange)

namespace PeersState

variable [DecidableEq P]

/-- A call. Only those that the handle of the peer has can be made. -/
def call (s : PeersState P n) : Call P n → Except Panic (PeersState P n)
  | .peer set p op =>
    match s.membership set p, op with
    | .notMember, .discover => .ok (s.discover set p)
    | .notConnected, .tryConnect d => Prod.snd <$> s.tryConnect set p d
    | .connected _, .disconnect => s.disconnect set p
    | .notConnected, .forgetPeer => s.forgetPeer set p
    | .connected _, .addReputation modifier => s.addReputation p modifier
    | _, .addNoSlotNode => s.addNoSlotNode set p
    | _, .removeNoSlotNode => s.removeNoSlotNode set p
    | _, _ => .ok s
  | .reputation p changes => .ok (s.changeReputation p changes)

/-! ## The counters -/

/-- The number of peers that are connected and count. -/
def Counts (s : PeersState P n) (set : Fin n) (d : Direction) (k : ℕ) : Prop :=
  ∃ peers : Finset P, peers.card = k ∧
    ∀ p, p ∈ peers ↔ s.membership set p = .connected d ∧ p ∉ (s.sets set).noSlotNodes

structure Sound (s : PeersState P n) : Prop where
  counts : ∀ set d, s.Counts set d ((s.sets set).num d)
  stored : ∀ p, (s.nodes p).isSome ↔ s.reputation p ≠ 0 ∨ ∃ set, s.membership set p ≠ .notMember

/-- The state is sound after a call, or a counter has overflowed. -/
def Fine : Except Panic (PeersState P n) → Prop
  | .ok s => s.Sound
  | .error panic => panic = .overflow

/-- What a peer adds to a counter. -/
def tally (m : MembershipState) (info : SetInfo P) (p : P) (d : Direction) : ℕ :=
  if m = .connected d ∧ p ∉ info.noSlotNodes then 1 else 0

variable {s s' : PeersState P n} {set : Fin n} {p : P} {d : Direction} {node : Node n}
  {info : SetInfo P} {o : Option (Node n)} {m : MembershipState}

theorem tally_idle (hm : ∀ d, m ≠ .connected d) : tally m info p d = 0 := if_neg fun h => hm d h.1

theorem tally_noSlot (hp : p ∈ info.noSlotNodes) : tally m info p d = 0 := if_neg fun h => h.2 hp

theorem tally_release (hpos : info.num d ≠ 0) (hp : p ∉ info.noSlotNodes) (d' : Direction) :
    update info.num d (info.num d - 1) d' + tally (.connected d) info p d' = info.num d' := by
  unfold tally
  by_cases hd : d' = d
  · subst hd
    simp [hp]
    omega
  · simp [hd, Ne.symm hd]

theorem tally_occupy (hp : p ∉ info.noSlotNodes) (d' : Direction) :
    update info.num d (info.num d + 1) d' = info.num d' + tally (.connected d) info p d' := by
  unfold tally
  by_cases hd : d' = d
  · subst hd
    simp [hp]
  · simp [hd, Ne.symm hd]

/-- Only one peer changes. -/
theorem Counts.move {k k' : ℕ} (h : s.Counts set d k)
    (hs : ∀ q ≠ p, s'.membership set q = s.membership set q ∧
      (q ∈ (s'.sets set).noSlotNodes ↔ q ∈ (s.sets set).noSlotNodes))
    (hk : k' + tally (s.membership set p) (s.sets set) p d =
      k + tally (s'.membership set p) (s'.sets set) p d) : s'.Counts set d k' := by
  obtain ⟨ps, rfl, hmem⟩ := h
  have hcard : (ps.erase p).card + tally (s.membership set p) (s.sets set) p d = ps.card := by
    simp only [tally, ← hmem]
    split
    · exact Finset.card_erase_add_one ‹_›
    · rw [Finset.erase_eq_of_notMem ‹_›, Nat.add_zero]
  have hk' : k' = (ps.erase p).card + tally (s'.membership set p) (s'.sets set) p d := by omega
  by_cases hp : s'.membership set p = .connected d ∧ p ∉ (s'.sets set).noSlotNodes
  · refine ⟨insert p (ps.erase p), ?_, fun q => ?_⟩
    · rw [Finset.card_insert_of_notMem (Finset.notMem_erase p ps), hk', tally, if_pos hp]
    · by_cases hq : q = p
      · simpa [hq] using hp
      · simp [hq, hmem, hs q hq]
  · refine ⟨ps.erase p, ?_, fun q => ?_⟩
    · rw [hk', tally, if_neg hp, Nat.add_zero]
    · by_cases hq : q = p
      · simpa [hq] using hp
      · simp [hq, hmem, hs q hq]

/-- One peer changes in one set, and the counters of the set with it. -/
theorem Sound.put (h : s.Sound) (hsl : ∀ q ≠ p, q ∈ info.noSlotNodes ↔ q ∈ (s.sets set).noSlotNodes)
    (ho : ∀ set' ≠ set, (o.getD .new).sets set' = s.membership set' p)
    (hnum : ∀ d, info.num d + tally (s.membership set p) (s.sets set) p d =
      (s.sets set).num d + tally ((o.getD .new).sets set) info p d)
    (hs : o.isSome ↔ (o.getD .new).reputation ≠ 0 ∨
      ∃ set, (o.getD .new).sets set ≠ .notMember) : ((s.putInfo set info).putNode p o).Sound where
  counts set' d := by
    refine (h.counts set' d).move (p := p) (fun q hq => ?_) ?_
    · by_cases hset : set' = set
      · subst hset
        simpa [membership, putNode, putInfo, hq] using hsl q hq
      · simp [membership, putNode, putInfo, hq, hset]
    · by_cases hset : set' = set
      · subst hset
        simpa [membership, putNode, putInfo] using hnum d
      · have hm : ((s.putInfo set info).putNode p o).membership set' p = s.membership set' p := by
          simpa [membership, putNode] using ho set' hset
        rw [hm]
        simp [putNode, putInfo, hset]
  stored q := by
    by_cases hq : q = p
    · simpa [hq, membership, reputation, putNode] using hs
    · simpa [hq, membership, reputation, putNode, putInfo] using h.stored q

/-- Only the counters of a set change, and whether a peer counts. -/
theorem Sound.putInfo (h : s.Sound)
    (hs : ∀ q ≠ p, q ∈ info.noSlotNodes ↔ q ∈ (s.sets set).noSlotNodes)
    (hnum : ∀ d, info.num d + tally (s.membership set p) (s.sets set) p d =
      (s.sets set).num d + tally (s.membership set p) info p d) : (s.putInfo set info).Sound := by
  simpa [putNode, PeersState.putInfo] using h.put hs (fun _ _ => rfl) hnum (h.stored p)

/-- The peer stays in the set. -/
theorem Sound.putMember (h : s.Sound) (hn : s.nodes p = some node) (hm : m ≠ .notMember)
    (hno : info.noSlotNodes = (s.sets set).noSlotNodes)
    (hnum : ∀ d, info.num d + tally (s.membership set p) (s.sets set) p d =
      (s.sets set).num d + tally m (s.sets set) p d) :
    ((s.putInfo set info).putMember set p node m).Sound := by
  refine h.put (fun q _ => by rw [hno]) (fun set' hset => ?_) (fun d => ?_) ?_
  · simp [membership, hn, hset]
  · simpa [tally, hno] using hnum d
  · simpa using .inr ⟨set, by simpa using hm⟩

/-- The peer is connected where it was. -/
theorem Sound.putNode (h : s.Sound)
    (hc : ∀ set d, (o.getD .new).sets set = .connected d ↔ s.membership set p = .connected d)
    (hs : o.isSome ↔ (o.getD .new).reputation ≠ 0 ∨
      ∃ set, (o.getD .new).sets set ≠ .notMember) : (s.putNode p o).Sound where
  counts set d := by
    refine (h.counts set d).move (p := p) (fun q hq => ?_) ?_
    · simp [membership, PeersState.putNode, hq]
    · have ht : tally ((o.getD .new).sets set) (s.sets set) p d =
          tally (s.membership set p) (s.sets set) p d := by simp only [tally, hc]
      rw [← ht]
      simp [membership, PeersState.putNode]
  stored q := by
    by_cases hq : q = p
    · simpa [hq, membership, reputation, PeersState.putNode] using hs
    · simpa [hq, membership, reputation, PeersState.putNode] using h.stored q

theorem Sound.putUnlessIdle (h : s.Sound)
    (hc : ∀ set d, node.sets set = .connected d ↔ s.membership set p = .connected d) :
    (s.putUnlessIdle p node).Sound := by
  unfold PeersState.putUnlessIdle
  split
  · rename_i hi
    refine h.putNode (fun set d => ?_) (by simp [Node.new])
    rw [← hc, hi.2]
    rfl
  · rename_i hi
    refine h.putNode hc ?_
    simpa [or_iff_not_imp_left] using hi

/-! ## Every call -/

omit [DecidableEq P] in
theorem Sound.num_ne_zero (h : s.Sound) (hc : s.membership set p = .connected d)
    (hp : p ∉ (s.sets set).noSlotNodes) : (s.sets set).num d ≠ 0 := by
  obtain ⟨peers, hca, hmem⟩ := h.counts set d
  rw [← hca]
  exact Finset.card_ne_zero_of_mem ((hmem p).mpr ⟨hc, hp⟩)

omit [DecidableEq P] in
theorem exists_node (h : s.membership set p = m) (hm : m ≠ .notMember) :
    ∃ node, s.nodes p = some node ∧ node.sets set = m := by
  unfold membership at h
  cases hn : s.nodes p with
  | none =>
    rw [hn] at h
    exact absurd h.symm hm
  | some node => exact ⟨node, rfl, by rwa [hn] at h⟩

theorem fine_addNoSlotNode (h : s.Sound) : Fine (s.addNoSlotNode set p) := by
  unfold addNoSlotNode
  split
  · exact h
  rename_i hp
  have hin := Finset.mem_insert_self p (s.sets set).noSlotNodes
  have hs : ∀ q ≠ p, q ∈ insert p (s.sets set).noSlotNodes ↔ q ∈ (s.sets set).noSlotNodes :=
    fun q hq => by simp [hq]
  dsimp only
  split
  · rename_i d hc
    have hpos := h.num_ne_zero hc hp
    rw [SetInfo.release, if_neg hpos]
    refine h.putInfo hs fun d' => ?_
    rw [hc, tally_release hpos hp, tally_noSlot hin, Nat.add_zero]
  · refine h.putInfo hs fun d => ?_
    rw [tally_idle ‹_›, tally_idle ‹_›]

theorem fine_removeNoSlotNode (h : s.Sound) : Fine (s.removeNoSlotNode set p) := by
  unfold removeNoSlotNode
  split
  · rename_i hp
    have hout := Finset.notMem_erase p (s.sets set).noSlotNodes
    have hs : ∀ q ≠ p, q ∈ (s.sets set).noSlotNodes.erase p ↔ q ∈ (s.sets set).noSlotNodes :=
      fun q hq => by simp [hq]
    dsimp only
    split
    · rename_i d hc
      unfold SetInfo.occupy
      split
      · rfl
      · refine h.putInfo hs fun d' => ?_
        rw [hc, tally_noSlot hp]
        exact tally_occupy hout d'
    · refine h.putInfo hs fun d => ?_
      rw [tally_idle ‹_›, tally_idle ‹_›]
  · exact h

theorem fine_disconnect (h : s.Sound) (hc : s.membership set p = .connected d) :
    Fine (s.disconnect set p) := by
  obtain ⟨node, hn, hs⟩ := exists_node hc nofun
  have hi : ∀ d, MembershipState.notConnected ≠ .connected d := nofun
  unfold disconnect
  rw [hn]
  dsimp only
  rw [hs]
  split
  · rename_i hp
    refine h.putMember hn nofun rfl fun d' => ?_
    rw [tally_noSlot hp, tally_idle hi]
  · rename_i hp
    have hpos := h.num_ne_zero hc hp
    dsimp only
    rw [SetInfo.release, if_neg hpos]
    refine h.putMember hn nofun rfl fun d' => ?_
    rw [hc, tally_release hpos hp, tally_idle hi, Nat.add_zero]

theorem fine_tryConnect (h : s.Sound) (hm : s.membership set p = .notConnected) :
    Fine (Prod.snd <$> s.tryConnect set p d) := by
  obtain ⟨node, hn, -⟩ := exists_node hm nofun
  have hi : ∀ d, s.membership set p ≠ .connected d := by simp [hm]
  unfold tryConnect
  split
  · exact h
  rw [hn]
  dsimp only
  split
  · rename_i hp
    refine h.putMember hn nofun rfl fun d' => ?_
    rw [tally_idle hi, tally_noSlot hp]
  · rename_i hp
    unfold SetInfo.occupy
    split
    · rfl
    · refine h.putMember hn nofun rfl fun d' => ?_
      rw [tally_idle hi]
      exact tally_occupy hp d'

omit [DecidableEq P] in
/-- A peer that is not connected in a set is not connected after its state there is written. -/
theorem connected_update (hm : ∀ d, s.membership set p ≠ .connected d)
    (hm' : ∀ d, m ≠ .connected d) (set' : Fin n) (d : Direction) :
    update ((s.nodes p).getD .new).sets set m set' = .connected d ↔
      s.membership set' p = .connected d := by
  by_cases hset : set' = set
  · subst hset
    simp [hm, hm']
  · simp [hset, membership]

theorem fine_call (h : s.Sound) (c : Call P n) : Fine (s.call c) := by
  cases c with
  | reputation p changes => exact h.putUnlessIdle fun _ _ => Iff.rfl
  | peer set p op =>
    unfold call
    dsimp only
    split
    · rename_i hm
      have hi : ∀ d, s.membership set p ≠ .connected d := by simp [hm]
      refine h.putNode (connected_update hi nofun) ?_
      simpa using .inr ⟨set, by simp⟩
    · exact fine_tryConnect h ‹_›
    · exact fine_disconnect h ‹_›
    · rename_i hm
      have hi : ∀ d, s.membership set p ≠ .connected d := by simp [hm]
      obtain ⟨node, hn, hs⟩ := exists_node hm nofun
      have hc := connected_update (m := .notMember) hi nofun
      rw [hn] at hc
      rw [forgetPeer, hn]
      dsimp only
      rw [if_neg (by simp [hs])]
      exact h.putUnlessIdle hc
    · rename_i hm
      obtain ⟨node, hn, hs⟩ := exists_node hm nofun
      rw [addReputation, hn]
      refine h.putNode (fun set' d => by simp [membership, hn]) ?_
      simpa using .inr ⟨set, by simp [hs]⟩
    · exact fine_addNoSlotNode h
    · exact fine_removeNoSlotNode h
    · exact h

omit [DecidableEq P] in
theorem sound_new (c : Fin n → Direction → ℕ) : (new c : PeersState P n).Sound where
  counts _ _ := ⟨∅, rfl, fun p => by simp [new, membership, Node.new]⟩
  stored p := by simp [new, membership, reputation, Node.new]

theorem Sound.run {cs : List (Call P n)} (h : s.Sound)
    (hrun : cs.foldlM call s = .ok s') : s'.Sound := by
  induction cs generalizing s with
  | nil =>
    cases hrun
    exact h
  | cons c cs ih =>
    have hf := fine_call h c
    rw [List.foldlM_cons] at hrun
    cases hc : s.call c with
    | error panic =>
      rw [hc] at hrun
      cases hrun
    | ok s1 =>
      rw [hc] at hf hrun
      exact ih hf hrun

/-- In every state that is reached the counters are exact, no call fails unless a counter overflows,
and a peer that occupies a slot is only accepted below the maximum. -/
theorem slots_accounted (config : Fin n → Direction → ℕ) (calls : List (Call P n))
    (s : PeersState P n) (hrun : calls.foldlM call (new config) = .ok s) :
    s.Sound ∧ (∀ c panic, s.call c = .error panic → panic = .overflow) ∧
      ∀ set p d s', s.tryConnect set p d = .ok (true, s') →
        p ∈ (s.sets set).noSlotNodes ∨ (s.sets set).num d < (s.sets set).max d := by
  have h := (sound_new config).run hrun
  refine ⟨h, fun c panic hc => ?_, fun set p d s' ha => ?_⟩
  · have hfi := fine_call h c
    rwa [hc] at hfi
  · unfold tryConnect at ha
    split at ha
    · cases ha
    · rename_i hf
      by_contra hcon
      push Not at hcon
      exact hf hcon.symm

/-- One slot of each kind for three peers. One of them needs none, and one is turned away. -/
def threePeers : List (Call ℕ 1) :=
  [.peer 0 7 .discover, .peer 0 8 .discover, .peer 0 9 .discover, .peer 0 7 (.tryConnect .outgoing),
    .peer 0 8 (.tryConnect .outgoing), .peer 0 9 .addNoSlotNode, .peer 0 9 (.tryConnect .outgoing),
    .peer 0 8 (.tryConnect .incoming), .peer 0 7 .disconnect]

theorem slots_accounted_threePeers : ∃ s : PeersState ℕ 1,
    threePeers.foldlM call (new fun _ _ => 1) = .ok s ∧ (s.sets 0).num .outgoing = 0 ∧
      (s.sets 0).num .incoming = 1 ∧ s.Sound ∧
      (∀ c panic, s.call c = .error panic → panic = .overflow) ∧
      ∀ set p d s', s.tryConnect set p d = .ok (true, s') →
        p ∈ (s.sets set).noSlotNodes ∨ (s.sets set).num d < (s.sets set).max d :=
  ⟨_, rfl, rfl, rfl, slots_accounted (fun _ _ => 1) threePeers _ rfl⟩

end PeersState

end

end Peerset
