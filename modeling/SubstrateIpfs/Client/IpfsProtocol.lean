-- SUMMARY: The protocol between IpfsApi and IpfsWorker: every outcome reaches the API once.
import SubstrateIpfs.Client.IpfsApi

/-!
# The protocol between the API and the worker

A started request is on its way to the worker, held by it, on its way back, or taken in by the API,
and the API has it as dispatched in exactly the first three cases. The invariant is about the ids in
these places.
-/

namespace Client

open List Function IpfsApi

open Ipfs (IpfsRequestStatus)

variable {N : NodeTypes} {Q : Type} {id : IpfsRequestId}
  {o : List (IpfsRequestId × IpfsRequestStatus)} {message : WorkerToApi N} {p : Polling Q}
  {api : IpfsApi N} {st : IpfsRequestStatus} {wait : Wait} {r : List (WorkerToApi N)}
  {held : List (IpfsRequestId × Q)} {n : ℕ}

/-! ## What a wait leaves alone -/

namespace IpfsApi

/-- The same requests are dispatched. -/
def SameDispatched (api api' : IpfsApi N) : Prop :=
  api'.nextId = api.nextId ∧
    ∀ id, api'.requests id = some .dispatched ↔ api.requests id = some .dispatched

theorem SameDispatched.refl (api : IpfsApi N) : SameDispatched api api := ⟨rfl, fun _ => Iff.rfl⟩

theorem SameDispatched.trans {a' api2 api3 : IpfsApi N} (h : SameDispatched a' api2)
    (h' : SameDispatched api2 api3) : SameDispatched a' api3 :=
  ⟨h'.1.trans h.1, fun id => (h'.2 id).trans (h.2 id)⟩

/-- Changing an entry that is not dispatched to another such entry. -/
theorem SameDispatched.update {e : Option (IpfsApiRequest N)}
    (hbef : api.requests id ≠ some .dispatched) (haft : e ≠ some .dispatched) :
    SameDispatched api { api with requests := update api.requests id e } := by
  refine ⟨rfl, fun id' => ?_⟩
  by_cases heq : id' = id
  · subst heq
    simp [hbef, haft]
  · simp [heq]

/-- Only requests that are not dispatched have an error as their status. -/
def ErrorsSettled (api : IpfsApi N) (output : List (IpfsRequestId × IpfsRequestStatus)) : Prop :=
  ∀ id message, (id, .ioError message) ∈ output → api.requests id ≠ some .dispatched

theorem ErrorsSettled.congr {a' : IpfsApi N} (hs : SameDispatched api a')
    (h : api.ErrorsSettled o) : a'.ErrorsSettled o :=
  fun id message hmem hdi => h id message hmem ((hs.2 id).mp hdi)

theorem errorsSettled_cons :
    api.ErrorsSettled ((id, st) :: o) ↔ api.ErrorsSettled [(id, st)] ∧ api.ErrorsSettled o := by
  simp only [ErrorsSettled, mem_cons, not_mem_nil, or_false]
  constructor
  · exact fun h => ⟨fun id message hmem => h id message (.inl hmem),
      fun id message hmem => h id message (.inr hmem)⟩
  · exact fun h id message hmem => hmem.elim (h.1 id message) (h.2 id message)

theorem look_spec (api : IpfsApi N) (hset : api.ErrorsSettled [(id, st)]) :
    SameDispatched api (api.look id st).1 ∧
      (api.look id st).1.ErrorsSettled [(id, (api.look id st).2.1)] := by
  unfold look
  split
  case h_1 hent => exact ⟨.refl api, by simp [ErrorsSettled]⟩
  case h_2 hent => exact ⟨.refl api, hset⟩
  case h_3 error hent => exact ⟨.refl api, by simp [ErrorsSettled, hent]⟩
  case h_4 hent => exact ⟨.refl api, hset⟩
  case h_5 resp hne hent =>
    exact ⟨.update (by simp [hent]) (by simp), by simp [ErrorsSettled]⟩

theorem scan_spec (api : IpfsApi N) (hset : api.ErrorsSettled o) :
    SameDispatched api (api.scan o).1 ∧
      (api.scan o).1.ErrorsSettled ((o.map Prod.fst).zip (api.scan o).2.1) := by
  induction o generalizing api with
  | nil => exact ⟨.refl api, by simp [ErrorsSettled]⟩
  | cons s o ih =>
    obtain ⟨id, st⟩ := s
    obtain ⟨hfst, hrest⟩ := errorsSettled_cons.mp hset
    obtain ⟨hs, hset1⟩ := api.look_spec hfst
    obtain ⟨hsame', hset'⟩ := ih (api.look id st).1 (hrest.congr hs)
    exact ⟨hs.trans hsame', errorsSettled_cons.mpr ⟨hset1.congr hsame', hset'⟩⟩

theorem purge_spec (api : IpfsApi N) (hset : api.ErrorsSettled o) :
    SameDispatched api (api.purge o) := by
  have hrev : api.ErrorsSettled o.reverse :=
    fun id message hmem => hset id message (mem_reverse.mp hmem)
  unfold purge
  clear hset
  generalize o.reverse = ss at hrev ⊢
  induction ss generalizing api with
  | nil => exact .refl api
  | cons s ss ih =>
    obtain ⟨id, st⟩ := s
    obtain ⟨hfst, hrest⟩ := errorsSettled_cons.mp hrev
    cases st with
    | ioError message =>
      have hs : SameDispatched api { api with requests := update api.requests id none } :=
        .update (hfst id message (mem_singleton.mpr rfl)) (by simp)
      exact hs.trans (ih _ (hrest.congr hs))
    | _ => exact ih api hrest

/-- The top of the loop changes entries that are not dispatched only. -/
theorem waitTop_spec (api : IpfsApi N) (d : Bool)
    (hset : api.ErrorsSettled (wait.ids.zip wait.output)) :
    SameDispatched api (api.waitTop wait d).1 ∧
      ∀ w', (api.waitTop wait d).2 = .ok w' →
        (api.waitTop wait d).1.ErrorsSettled (w'.ids.zip w'.output) := by
  obtain ⟨hsa, hs⟩ := api.scan_spec hset
  rw [map_fst_zip wait.length_output.ge] at hs
  unfold waitTop
  simp only
  split
  · exact ⟨hsa.trans (purge_spec _ hs), by simp⟩
  · refine ⟨hsa, fun w' heq => ?_⟩
    obtain rfl := Except.ok.inj heq
    exact hs

/-- A dispatched request that is answered is not dispatched any more. -/
theorem receive_dispatched (api : IpfsApi N) (hent : api.requests message.id = some .dispatched) :
    ∃ a', api.receive message = (a', true) ∧ a'.nextId = api.nextId ∧
      ∀ id, a'.requests id = some .dispatched ↔
        api.requests id = some .dispatched ∧ id ≠ message.id := by
  refine ⟨{ api with requests := update api.requests message.id (some message.entry) },
    by simp only [receive, hent], rfl, ?_⟩
  intro id
  by_cases heq : id = message.id
  · subst heq
    cases message with
    | response | fail => simp [WorkerToApi.entry]
  · simp [heq]

end IpfsApi

/-! ## Where the requests are -/

namespace System

/-- The ids that are on their way to the worker, held by it, or on their way back. -/
def inFlight (s : System N Q) : List IpfsRequestId :=
  s.toWorker.map (·.id) ++ s.held.map (·.1) ++ s.toApi.map (·.id)

/-- The part of the held requests that a poll has not come to is as it was, and
the rest of what was held has been polled, from the back. -/
structure PollingInv (held : List (IpfsRequestId × Q)) (p : Polling Q) : Prop where
  untouched : held.take p.remaining = p.before.take p.remaining
  bound : p.remaining ≤ p.before.length
  polled : p.polled = (p.before.drop p.remaining).reverse

/-- Every started request is in one place. -/
structure Accounted (s : System N Q) : Prop where
  used : ∀ id ∈ s.started, id.toNat < s.api.nextId.toNat
  nodup : s.started.Nodup
  moved : (s.inFlight ++ s.delivered.map (·.id)).Perm s.started
  fifo : s.delivered ++ s.toApi = s.completed
  dispatched : ∀ id, s.api.requests id = some .dispatched ↔ id ∈ s.inFlight
  polling : ∀ p, s.polling = some p → PollingInv s.held p
  mismatches : s.mismatches = 0

/-- The invariant of the system. -/
structure Inv (s : System N Q) : Prop extends Accounted s where
  waiting : ∀ wait, s.wait = some wait → s.api.ErrorsSettled (wait.ids.zip wait.output)

theorem Inv.start (N : NodeTypes) (Q : Type) (ni : IpfsRequestId) : Inv (start N Q ni) where
  used := by simp [System.start]
  nodup := by simp [System.start]
  moved := by simp [System.start, inFlight]
  fifo := by simp [System.start]
  dispatched := by simp [System.start, inFlight]
  polling := by simp [System.start]
  mismatches := rfl
  waiting := by simp [System.start]

variable {s : System N Q}

theorem Accounted.inFlight_nodup (h : Accounted s) : s.inFlight.Nodup :=
  (nodup_append.mp (h.moved.nodup_iff.mpr h.nodup)).1

/-- The top of the loop. -/
theorem Accounted.loopTop (h : Accounted s) (d : Bool)
    (hset : s.api.ErrorsSettled (wait.ids.zip wait.output)) :
    Inv (s.loopTop wait d) := by
  obtain ⟨hs, hwt⟩ := s.api.waitTop_spec d hset
  unfold System.loopTop
  generalize s.api.waitTop wait d = res at hs hwt ⊢
  obtain ⟨api, out⟩ := res
  have hu : ∀ id ∈ s.started, id.toNat < api.nextId.toNat := by
    intro id hmem
    rw [hs.1]
    exact h.used id hmem
  have hdi : ∀ id, api.requests id = some .dispatched ↔ id ∈ s.inFlight :=
    fun id => (hs.2 id).trans (h.dispatched id)
  cases out with
  | error o =>
    exact ⟨⟨hu, h.nodup, h.moved, h.fifo, hdi, h.polling, h.mismatches⟩, by simp⟩
  | ok wait' =>
    refine ⟨⟨hu, h.nodup, h.moved, h.fifo, hdi, h.polling, h.mismatches⟩, ?_⟩
    intro wait'' heq
    obtain rfl := Option.some.inj heq
    exact hwt _ rfl

/-- A started request goes on its way to the worker. -/
theorem Inv.requestStart (h : Inv s) (hw : s.wait = none) (req : Q) : Inv (s.requestStart req) := by
  unfold System.requestStart IpfsApi.requestStart
  by_cases hr : s.api.nextId.toNat + 1 < UInt16.size
  case neg => simpa [if_neg hr, Except.toOption] using h
  rw [if_pos hr]
  simp only [Except.toOption, Option.toList_some]
  generalize hid : s.api.nextId = id at hr ⊢
  have hn : (id + 1).toNat = id.toNat + 1 := by
    exact Nat.mod_eq_of_lt hr
  have hnew : id ∉ s.started := fun hmem => lt_irrefl _ (hid ▸ h.used _ hmem)
  refine ⟨⟨?_, ?_, ?_, h.fifo, ?_, h.polling, h.mismatches⟩, by simp [hw]⟩
  · simp only [forall_mem_append, forall_mem_singleton, hn]
    exact ⟨fun id' hmem => Nat.lt_succ_of_lt (hid ▸ h.used id' hmem), Nat.lt_succ_self _⟩
  · exact (nodup_append_comm.trans nodup_cons).mpr ⟨hnew, h.nodup⟩
  · refine perm_iff_count.mpr fun id' => ?_
    have hcnt := h.moved.count_eq id'
    simp only [inFlight, map_append, count_append, map_cons, map_nil] at hcnt ⊢
    omega
  · intro id'
    have hmem := h.dispatched id'
    by_cases hs : id' = id
    · simp [inFlight, hs]
    · simpa [inFlight, hs] using hmem

/-- A completion that arrives finds its request dispatched. -/
theorem Inv.receive (h : Inv s) (hapi : s.toApi = message :: r) (hw : s.wait = some wait) :
    Accounted (s.receive message r) ∧
      (s.receive message r).api.ErrorsSettled (wait.ids.zip wait.output) := by
  have hent : s.api.requests message.id = some .dispatched :=
    (h.dispatched _).mpr (by simp [inFlight, hapi])
  obtain ⟨api, hrec, hn, hdi⟩ := s.api.receive_dispatched hent
  have hnd := h.inFlight_nodup
  simp only [System.receive, hrec]
  refine ⟨⟨?_, h.nodup, ?_, ?_, ?_, h.polling, h.mismatches⟩, ?_⟩
  · exact fun id hmem => hn ▸ h.used id hmem
  · refine perm_iff_count.mpr fun id => ?_
    have hcnt := h.moved.count_eq id
    simp only [inFlight, hapi, map_append, map_cons, map_nil, count_append,
      count_cons, count_nil] at hcnt ⊢
    omega
  · simpa [hapi] using h.fifo
  · intro id
    rw [hdi id, h.dispatched id]
    simp only [inFlight, hapi, map_cons] at hnd ⊢
    obtain ⟨ho, -⟩ := nodup_cons.mp (nodup_middle.mp hnd)
    rw [perm_middle.mem_iff, mem_cons]
    constructor
    · rintro ⟨rfl | hmem, hne⟩
      · exact absurd rfl hne
      · exact hmem
    · intro hmem
      refine ⟨.inr hmem, ?_⟩
      rintro rfl
      exact ho hmem
  · intro id error hmem hdisp
    exact h.waiting wait hw id error hmem ((hdi id).mp hdisp).1

/-- The worker moves requests from one place to another. -/
theorem Inv.relocate {s' : System N Q} (h : Inv s) (hapi : s'.api = s.api) (hw : s'.wait = s.wait)
    (hst : s'.started = s.started) (hdel : s'.delivered = s.delivered)
    (hm : s'.mismatches = s.mismatches) (hmv : s'.inFlight.Perm s.inFlight)
    (hf : s'.delivered ++ s'.toApi = s'.completed)
    (hp : ∀ p, s'.polling = some p → PollingInv s'.held p) : Inv s' where
  used := by rw [hst, hapi]; exact h.used
  nodup := by rw [hst]; exact h.nodup
  moved := by rw [hst, hdel]; exact (hmv.append_right _).trans h.moved
  fifo := hf
  dispatched := fun id => by rw [hapi, h.dispatched id, hmv.mem_iff]
  polling := hp
  mismatches := hm.trans h.mismatches
  waiting := by rw [hw, hapi]; exact h.waiting

theorem PollingInv.start (held : List (IpfsRequestId × Q)) :
    PollingInv held ⟨held.length, held, []⟩ :=
  ⟨rfl, le_rfl, by simp⟩

/-- The request that is polled next has not been touched. -/
theorem PollingInv.next (h : PollingInv held p) (hle : p.remaining = n + 1) :
    ∃ x zs, Vec.swapRemove held n = some (x, held.take n ++ zs) ∧
      held.Perm (x :: (held.take n ++ zs)) ∧
      ∀ he', PollingInv (held.take n ++ he')
        { p with remaining := n, polled := p.polled ++ [x] } := by
  have hbd : n < p.before.length := lt_of_lt_of_le (by omega) h.bound
  have hl : n < held.length := by
    have hlen := congrArg length h.untouched
    simp only [length_take] at hlen
    omega
  obtain ⟨zs, hrem, hperm⟩ := Vec.swapRemove_of_lt hl
  have ht : held.take n = p.before.take n := by
    have hcut := congrArg (take n) h.untouched
    rwa [hle, take_take, take_take, min_eq_left (Nat.le_succ n)] at hcut
  have hs : held[n] = p.before[n] := by
    have hget := congrArg (fun l => l[n]?) h.untouched
    simpa [hle, hl, hbd] using hget
  refine ⟨held[n], zs, hrem, (Vec.swapRemove_eq_some hrem).2, fun he' => ⟨?_, hbd.le, ?_⟩⟩
  · have hlen : (held.take n).length = n := length_take_of_le hl.le
    rw [← ht]
    exact take_left' hlen
  · simp only [h.polled, hle, hs]
    rw [drop_eq_getElem_cons hbd, reverse_cons]

theorem Inv.pollNext (h : Inv s) (out : PollOutcome N) (hp : s.polling = some p)
    (hl : p.remaining = n + 1) : Inv (s.pollNext out n p) := by
  obtain ⟨⟨id, req⟩, zs, hrem, hpe, hn⟩ := (h.polling p hp).next hl
  have hids : (s.held.map (·.1)).Perm (id :: (s.held.take n ++ zs).map (·.1)) := hpe.map _
  unfold System.pollNext
  simp only [hrem]
  cases out with
  | pending =>
    refine h.relocate rfl rfl rfl rfl rfl ?_ h.fifo ?_
    · refine perm_iff_count.mpr fun id' => ?_
      have hcnt := hids.count_eq id'
      simp only [inFlight, map_append, map_cons, map_nil, count_append,
        count_cons, count_nil] at hcnt ⊢
      omega
    · rintro p' ⟨⟩
      rw [append_assoc]
      exact hn _
  | ready res =>
    refine h.relocate rfl rfl rfl rfl rfl ?_ ?_ ?_
    · refine perm_iff_count.mpr fun id' => ?_
      have hcnt := hids.count_eq id'
      simp only [inFlight, map_append, map_cons, map_nil, count_append,
        count_cons, count_nil, WorkerToApi.id_ofResult] at hcnt ⊢
      omega
    · simp only [← h.fifo, append_assoc]
    · rintro p' ⟨⟩
      exact hn _

theorem Inv.pollEnd (h : Inv s) : Inv s.pollEnd := by
  unfold System.pollEnd
  cases hwkr : s.toWorker with
  | nil => exact h.relocate rfl rfl rfl rfl rfl (by simp [inFlight, hwkr]) h.fifo (by simp)
  | cons message r =>
    refine h.relocate rfl rfl rfl rfl rfl ?_ h.fifo (by simp)
    refine perm_iff_count.mpr fun id => ?_
    simp only [inFlight, hwkr, map_append, map_cons, map_nil, count_append, count_cons, count_nil]
    omega

/-- Every step keeps the invariant. -/
theorem Inv.step (h : Inv s) (a : Action N Q) : Inv (s.step a) := by
  cases a with
  | requestStart req =>
    simp only [System.step]
    split
    case h_1 hwait => exact h.requestStart hwait req
    case h_2 => exact h
  | responseWait ids deadline =>
    simp only [System.step]
    split
    case h_1 hwait =>
      refine h.toAccounted.loopTop false ?_
      intro id message hmem
      have hs := (of_mem_zip hmem).2
      simp [waitStart] at hs
    case h_2 => exact h
  | receive =>
    simp only [System.step]
    split
    case h_1 wait message r hwait hapi =>
      obtain ⟨ha, hset⟩ := h.receive hapi hwait
      exact ha.loopTop false hset
    case h_2 => exact h
  | deadlineReached =>
    simp only [System.step]
    split
    case h_1 wait hwait hapi =>
      split
      · exact h.toAccounted.loopTop true (h.waiting wait hwait)
      · exact h
    case h_2 => exact h
  | pollBegin =>
    simp only [System.step]
    split
    case h_1 hidle =>
      refine h.relocate rfl rfl rfl rfl rfl (List.Perm.refl _) h.fifo ?_
      rintro p ⟨⟩
      exact .start _
    case h_2 => exact h
  | pollNext out =>
    simp only [System.step]
    split
    case h_1 n before polled hpoll => exact h.pollNext out hpoll rfl
    case h_2 => exact h
  | pollEnd =>
    simp only [System.step]
    split
    case h_1 => exact h.pollEnd
    case h_2 => exact h

/-- Every run keeps the invariant. -/
theorem Inv.exec (h : Inv s) (acts : List (Action N Q)) : Inv (Run.exec System.step s acts) :=
  (Run.Each.always (G := fun _ _ => True) (fun _ a h _ => h.step a) h fun _ _ _ => trivial).last

/-! ## Every request can be answered -/

/-- How many hops the requests in flight are from the API. -/
def hops (s : System N Q) : ℕ := 3 * s.toWorker.length + 2 * s.held.length + s.toApi.length

theorem hops_loopTop (s : System N Q) (w : Wait) (d : Bool) :
    (s.loopTop w d).hops = s.hops ∧ (s.loopTop w d).toApi = s.toApi := by
  unfold loopTop
  split
  · exact ⟨rfl, rfl⟩
  · exact ⟨rfl, rfl⟩

/-- A message that is there gets in. -/
theorem hops_receive (hw : s.wait = some wait) (hapi : s.toApi = message :: r) :
    (s.step .receive).hops < s.hops := by
  simp only [step, hw, hapi, (hops_loopTop _ _ _).1]
  unfold receive
  split
  · simp [hops, hapi]
  · simp [hops, hapi]

/-- A request whose poll is due can complete. -/
theorem Inv.hops_pollNext (h : Inv s) (hp : s.polling = some p) (hl : p.remaining = n + 1) :
    (s.step (.pollNext (.ready (.ok .success)))).hops < s.hops := by
  obtain ⟨⟨id, req⟩, zs, hrem, hpe, -⟩ := (h.polling p hp).next hl
  have hlen := hpe.length_eq
  obtain ⟨rem, before, polled⟩ := p
  obtain rfl : rem = n + 1 := hl
  simp only [System.step, hp, System.pollNext, hrem, hops, length_append,
    length_cons, length_nil] at hlen ⊢
  omega

/-- At the end of a poll, a message is taken or the worker is idle. -/
theorem hops_pollEnd (hp : s.polling = some p) (hl : p.remaining = 0) :
    (s.step .pollEnd).hops < s.hops ∨
      s.toWorker = [] ∧ s.step .pollEnd = { s with polling := none } := by
  obtain ⟨rem, before, polled⟩ := p
  obtain rfl : rem = 0 := hl
  simp only [step, hp, pollEnd]
  cases hwkr : s.toWorker with
  | nil => exact .inr ⟨rfl, rfl⟩
  | cons message r =>
    left
    simp only [hops, hwkr, length_append, length_cons, length_nil]
    omega

/-- An idle worker with something to do gets on with it. -/
theorem Inv.progress_idle (h : Inv s) (hi : s.polling = none) (hw : s.toWorker ≠ [] ∨ s.held ≠ []) :
    ∃ acts, (Run.exec System.step s acts).hops < s.hops := by
  have hbeg : s.step .pollBegin = { s with polling := some ⟨s.held.length, s.held, []⟩ } := by
    simp only [System.step, hi]
  have hinv : Inv { s with polling := some ⟨s.held.length, s.held, []⟩ } := hbeg ▸ h.step .pollBegin
  cases hh : s.held with
  | cons x held =>
    refine ⟨[.pollBegin, .pollNext (.ready (.ok .success))], ?_⟩
    rw [Run.exec_cons, hbeg]
    exact hinv.hops_pollNext rfl (by simp [hh]; rfl)
  | nil =>
    refine ⟨[.pollBegin, .pollEnd], ?_⟩
    rw [Run.exec_cons, hbeg]
    obtain hl | ⟨hwkr, -⟩ :=
      hops_pollEnd (s := { s with polling := some ⟨s.held.length, s.held, []⟩ }) rfl (by simp [hh])
    · exact hl
    · exact absurd hwkr (hw.resolve_right (by simp [hh]))

/-- Something in flight can get closer to the API. -/
theorem Inv.progress (h : Inv s) (hfl : s.inFlight ≠ []) :
    ∃ acts, (Run.exec System.step s acts).hops < s.hops := by
  cases hapi : s.toApi with
  | cons message r =>
    cases hwa : s.wait with
    | some wait => exact ⟨[.receive], hops_receive hwa hapi⟩
    | none =>
      have hent : s.api.requests message.id = some .dispatched :=
        (h.dispatched _).mpr (by simp [inFlight, hapi])
      have hs : s.step (.responseWait [message.id] false) =
          s.loopTop (waitStart [message.id] false) false := by simp only [System.step, hwa]
      obtain ⟨wait, hwt⟩ :
          ∃ wait, (s.loopTop (waitStart [message.id] false) false).wait = some wait := by
        simp [loopTop, waitTop, waitStart, scan, look, hent]
      obtain ⟨hh, hsa⟩ := hops_loopTop s (waitStart [message.id] false) false
      refine ⟨[.responseWait [message.id] false, .receive], ?_⟩
      rw [Run.exec_cons, hs, ← hh]
      exact hops_receive hwt (hsa.trans hapi)
  | nil =>
    have hw : s.toWorker ≠ [] ∨ s.held ≠ [] := by
      by_contra hnone
      rw [not_or, not_not, not_not] at hnone
      exact hfl (by simp [inFlight, hnone, hapi])
    cases hp : s.polling with
    | none => exact h.progress_idle hp hw
    | some p =>
      cases hle : p.remaining with
      | succ n =>
        exact ⟨[.pollNext (.ready (.ok .success))], h.hops_pollNext hp hle⟩
      | zero =>
        obtain hl | ⟨-, hend⟩ := hops_pollEnd hp hle
        · exact ⟨[.pollEnd], hl⟩
        · have hinv : Inv { s with polling := none } := hend ▸ h.step .pollEnd
          obtain ⟨acts, hl⟩ := hinv.progress_idle rfl hw
          exact ⟨.pollEnd :: acts, by rw [Run.exec_cons, hend]; exact hl⟩

/-- From every state, a run in which every request in flight is answered. -/
theorem Inv.drains (h : Inv s) : ∃ acts, (Run.exec System.step s acts).inFlight = [] := by
  induction hh : s.hops using Nat.strong_induction_on generalizing s with
  | _ n ih =>
    by_cases hfl : s.inFlight = []
    · exact ⟨[], hfl⟩
    · obtain ⟨acts, hl⟩ := h.progress hfl
      obtain ⟨more, hdone⟩ := ih _ (hh ▸ hl) (h.exec acts) rfl
      exact ⟨acts ++ more, by rwa [Run.exec_append]⟩

/-! ## The protocol -/

/-- What a poll has polled and has still to poll is what was held at its start. -/
theorem PollingInv.perm (h : PollingInv held p) :
    p.remaining ≤ held.length ∧ (p.polled ++ held.take p.remaining).Perm p.before := by
  have hlen := congrArg length h.untouched
  have hbd := h.bound
  simp only [length_take] at hlen
  refine ⟨by omega, ?_⟩
  have hs : (p.before.drop p.remaining ++ p.before.take p.remaining).Perm
      (p.before.take p.remaining ++ p.before.drop p.remaining) := perm_append_comm
  rw [take_append_drop] at hs
  rw [h.untouched, h.polled]
  exact ((reverse_perm _).append_right _).trans hs

/-- The protocol works in the state. -/
structure ExactlyOnce (s : System N Q) : Prop where
  /-- A dispatched request is in one place between the API and the worker. -/
  dispatched : ∀ id, s.api.requests id = some .dispatched → s.inFlight.count id = 1
  /-- No other id is there. -/
  others : ∀ id, s.api.requests id ≠ some .dispatched → s.inFlight.count id = 0
  /-- Every started request is there, or its outcome has arrived, once. -/
  arrives : ∀ id, s.inFlight.count id + (s.delivered.map (·.id)).count id =
    if id ∈ s.started then 1 else 0
  /-- Outcomes arrive as the worker has sent them. -/
  outcomes : s.delivered ++ s.toApi = s.completed
  /-- Everything in flight can still arrive. -/
  drains : ∃ actions, (Run.exec System.step s actions).inFlight = []
  /-- A poll of the worker stays inside the held requests, and what it has polled
  together with what it has still to poll is what was held at its start. -/
  polls : ∀ p, s.polling = some p →
    p.remaining ≤ s.held.length ∧ (p.polled ++ s.held.take p.remaining).Perm p.before
  /-- There was no state mismatch between the API and the worker. -/
  matched : s.mismatches = 0

end System

/-- The protocol works in every state of every run. -/
theorem protocol_exactly_once (nextId : IpfsRequestId) (actions : List (Action N Q)) :
    System.ExactlyOnce (Run.exec System.step (System.start N Q nextId) actions) := by
  have h := (System.Inv.start N Q nextId).exec actions
  generalize Run.exec System.step (System.start N Q nextId) actions = s at h
  refine ⟨?_, ?_, ?_, h.fifo, h.drains, fun p hp => (h.polling p hp).perm, h.mismatches⟩
  · intro id hdi
    have hpos : 0 < s.inFlight.count id := count_pos_iff.mpr ((h.dispatched id).mp hdi)
    exact le_antisymm (nodup_iff_count_le_one.mp h.inFlight_nodup id) hpos
  · intro id hnot
    exact count_eq_zero.mpr fun hmem => hnot ((h.dispatched id).mpr hmem)
  · intro id
    have hcnt := h.moved.count_eq id
    rw [count_append] at hcnt
    rw [hcnt]
    split
    case isTrue hmem => exact count_eq_one_of_mem h.nodup hmem
    case isFalse hmem => exact count_eq_zero.mpr hmem

end Client

/-! ## Waiting without a deadline

A response is handed out once, after which a placeholder takes its place. A slot that finds the
placeholder keeps the status it has, which is `deadlineReached` at the start of a wait. So a wait
answers for all of its ids if each of them has one slot, and its response is still to be handed
out.
-/

namespace Client

open List Prod Client.System

open Ipfs (IpfsRequestStatus)

variable {N : NodeTypes} {Q : Type} {wait : Wait} {d : Bool} {a : Action N Q}

namespace IpfsApi

variable {id : IpfsRequestId} {ss : List (IpfsRequestId × IpfsRequestStatus)} {api : IpfsApi N}

/-- The placeholder is in the place of the response. -/
def HandedOut (api : IpfsApi N) (id : IpfsRequestId) : Prop :=
  api.requests id = some (.response .success)

/-- Slots without a status have something to wait for or to hand out. -/
def Open (api : IpfsApi N) (slots : List (IpfsRequestId × IpfsRequestStatus)) : Prop :=
  ∀ id, (id, .deadlineReached) ∈ slots → ¬ api.HandedOut id

/-- Looking at an id leaves the others alone. Without a status it is dispatched, and still is. -/
theorem look_open {s : IpfsRequestStatus} (h : api.Open [(id, s)]) :
    (∀ b, b ≠ id → (api.look id s).1.requests b = api.requests b) ∧
      ((api.look id s).2.1 = .deadlineReached →
        (api.look id s).1.requests id = some .dispatched ∧ (api.look id s).2.2 = true) := by
  unfold look
  split
  case h_1 hent => exact ⟨fun _ _ => rfl, nofun⟩
  case h_2 hent => exact ⟨fun _ _ => rfl, fun _ => ⟨hent, rfl⟩⟩
  case h_3 error hent => exact ⟨fun _ _ => rfl, nofun⟩
  case h_4 hent =>
    refine ⟨fun _ _ => rfl, ?_⟩
    rintro rfl
    exact absurd hent (h id (mem_singleton.mpr rfl))
  case h_5 resp hne hent => exact ⟨fun b hoth => by simp [hoth], nofun⟩

/-- A scan of distinct ids: those that are left without a status are dispatched. -/
theorem scan_open (hids : (ss.map fst).Nodup) (h : api.Open ss) :
    (∀ b, b ∉ ss.map fst → (api.scan ss).1.requests b = api.requests b) ∧
      ∀ id, (id, .deadlineReached) ∈ (ss.map fst).zip (api.scan ss).2.1 →
        (api.scan ss).1.requests id = some .dispatched ∧ (api.scan ss).2.2 = true := by
  induction ss generalizing api with
  | nil => exact ⟨fun _ _ => rfl, nofun⟩
  | cons sl ss ih =>
    obtain ⟨id, s⟩ := sl
    obtain ⟨hid, hids⟩ := nodup_cons.mp hids
    obtain ⟨hoth, hl⟩ := look_open fun id' hmem =>
      h id' (mem_cons.mpr (.inl (mem_singleton.mp hmem)))
    have hr : (api.look id s).1.Open ss := by
      intro id' hmem hout
      have hne : id' ≠ id := by
        rintro rfl
        exact hid (mem_map.mpr ⟨_, hmem, rfl⟩)
      exact h id' (mem_cons_of_mem _ hmem) ((hoth id' hne).symm.trans hout)
    obtain ⟨hs, hsc⟩ := ih hids hr
    refine ⟨fun b ho => ?_, fun id' hmem => ?_⟩
    · rw [map_cons, mem_cons, not_or] at ho
      exact (hs b ho.2).trans (hoth b ho.1)
    rcases mem_cons.mp hmem with heq | hmem
    · obtain ⟨rfl, hst⟩ := Prod.mk.inj heq
      obtain ⟨hent, hw⟩ := hl hst.symm
      exact ⟨(hs _ hid).trans hent, by simp [scan, hw]⟩
    · obtain ⟨hent, hw⟩ := hsc id' hmem
      exact ⟨hent, by simp [scan, hw]⟩

/-- The top of the loop: it returns with a status for every id, or goes on with open slots. -/
theorem waitTop_open (hids : wait.ids.Nodup) (h : api.Open (wait.ids.zip wait.output)) :
    (∀ o, (api.waitTop wait false).2 = .error o → .deadlineReached ∉ o) ∧
      ∀ w', (api.waitTop wait false).2 = .ok w' → w'.ids = wait.ids ∧
        w'.deadline = wait.deadline ∧
        (api.waitTop wait false).1.Open (w'.ids.zip w'.output) := by
  have hfst : (wait.ids.zip wait.output).map fst = wait.ids := map_fst_zip wait.length_output.ge
  obtain ⟨-, hs⟩ := scan_open (hfst.symm ▸ hids) h
  rw [hfst] at hs
  have hlen := length_scan api (wait.ids.zip wait.output)
  rw [length_zip] at hlen
  unfold waitTop
  simp only
  split
  next hdo =>
    refine ⟨?_, nofun⟩
    rintro o ⟨⟩ hmem
    obtain ⟨i, hi, hget⟩ := mem_iff_getElem.mp hmem
    have hsl : (wait.ids[i], .deadlineReached) ∈
        wait.ids.zip (api.scan (wait.ids.zip wait.output)).2.1 := by
      rw [← hget, ← getElem_zip (h := by rw [length_zip]; omega)]
      exact getElem_mem _
    simp [(hs _ hsl).2] at hdo
  · refine ⟨nofun, ?_⟩
    rintro w' ⟨⟩
    refine ⟨rfl, rfl, fun id hmem hout => ?_⟩
    cases (hs id hmem).1.symm.trans hout

theorem waitTop_deadline {w' : Wait} (h : (api.waitTop wait d).2 = .ok w') :
    w'.deadline = wait.deadline := by
  unfold waitTop at h
  simp only at h
  split at h
  · cases h
  · cases h
    rfl

/-- A message that is not the placeholder opens what it answers. -/
theorem Open.receive (h : api.Open ss) {m : WorkerToApi N}
    (hmsg : m.entry ≠ .response .success) : (api.receive m).1.Open ss := by
  intro id hmem hout
  have hent : ∀ e, e ≠ some (.response .success) →
      Function.update api.requests m.id e id ≠ some (.response .success) := by
    intro e hent
    by_cases hid : id = m.id
    · subst hid
      rwa [Function.update_self]
    · rw [Function.update_of_ne hid]
      exact h id hmem
  unfold IpfsApi.receive at hout
  split at hout
  · exact hent _ (fun heq => hmsg (Option.some.inj heq)) hout
  · exact hent none nofun hout

end IpfsApi

namespace System

variable {s : System N Q}

/-- The call that the step starts or goes on with has no deadline. -/
def Unlimited (s : System N Q) (action : Action N Q) : Prop :=
  match s.wait, action with
  | some wait, _ => wait.deadline = false
  | none, .responseWait _ deadline => deadline = false
  | none, _ => False

/-- If the step makes a call without a deadline return, it has a status for every id. -/
def AnswersAll (s : System N Q) (action : Action N Q) : Prop :=
  s.Unlimited action →
    ∀ output ∈ (s.step action).returned.drop s.returned.length, .deadlineReached ∉ output

/-- A call without a deadline has distinct ids, the responses of which are still to be handed out,
and the node does not answer with the placeholder. -/
def WaitsOnce (s : System N Q) : Action N Q → Prop
  | .responseWait ids false => s.wait = none → ids.Nodup ∧ ∀ id ∈ ids, ¬ s.api.HandedOut id
  | .pollNext (.ready (.ok .success)) => False
  | _ => True

/-- What holds between the steps. -/
structure Answering (s : System N Q) : Prop where
  waiting : ∀ wait, s.wait = some wait → wait.deadline = false →
    wait.ids.Nodup ∧ s.api.Open (wait.ids.zip wait.output)
  messages : ∀ message ∈ s.toApi, message.entry ≠ .response .success

theorem Answering.loopTop (hm : ∀ m ∈ s.toApi, m.entry ≠ .response .success)
    (hw : wait.deadline = false → d = false ∧ wait.ids.Nodup ∧
      s.api.Open (wait.ids.zip wait.output)) :
    Answering (s.loopTop wait d) ∧ (wait.deadline = false →
      ∀ o ∈ (s.loopTop wait d).returned.drop s.returned.length, .deadlineReached ∉ o) := by
  unfold System.loopTop
  cases hres : s.api.waitTop wait d with
  | mk api out =>
    cases out with
    | error o =>
      refine ⟨⟨nofun, hm⟩, fun hde => ?_⟩
      obtain ⟨rfl, hids, ho⟩ := hw hde
      have hou := (IpfsApi.waitTop_open hids ho).1 o (congrArg snd hres)
      simpa using hou
    | ok w' =>
      refine ⟨⟨?_, hm⟩, by simp⟩
      rintro _ ⟨⟩ hde
      rw [IpfsApi.waitTop_deadline (congrArg snd hres)] at hde
      obtain ⟨rfl, hids, ho⟩ := hw hde
      obtain ⟨hsame, -, hopen'⟩ := (IpfsApi.waitTop_open hids ho).2 w' (congrArg snd hres)
      rw [hres] at hopen'
      exact ⟨hsame ▸ hids, hopen'⟩

theorem answersAll_of_returned (h : (s.step a).returned = s.returned) : s.AnswersAll a := by
  intro _
  rw [h, drop_length]
  exact forall_mem_nil _

/-- The worker has its messages and leaves the rest alone. -/
theorem Answering.of_worker {s' : System N Q} (h : Answering s) (hapi : s'.api = s.api)
    (hw : s'.wait = s.wait) (hm : ∀ m ∈ s'.toApi, m.entry ≠ .response .success) :
    Answering s' :=
  ⟨by rw [hapi, hw]; exact h.waiting, hm⟩

theorem Answering.step (h : Answering s) (hon : s.WaitsOnce a) :
    Answering (s.step a) ∧ s.AnswersAll a := by
  cases a with
  | requestStart req =>
    cases hw : s.wait with
    | none =>
      refine ⟨⟨fun wait heq => ?_, ?_⟩, answersAll_of_returned ?_⟩
      all_goals simp only [step, hw]
      · simp [step, hw, requestStart] at heq
      · exact h.messages
      · rfl
    | some wait =>
      simp only [AnswersAll, step, hw]
      exact ⟨h, by simp⟩
  | responseWait ids de =>
    cases hw : s.wait with
    | none =>
      simp only [AnswersAll, Unlimited, step, hw]
      refine loopTop h.messages fun hde => ⟨rfl, ?_⟩
      obtain rfl : de = false := hde
      obtain ⟨hids, ho⟩ := hon hw
      exact ⟨hids, fun id hmem => ho id (of_mem_zip hmem).1⟩
    | some wait =>
      simp only [AnswersAll, step, hw]
      exact ⟨h, by simp⟩
  | receive =>
    cases hw : s.wait with
    | none =>
      simp only [AnswersAll, step, hw]
      exact ⟨h, by simp⟩
    | some wait =>
      cases ht : s.toApi with
      | nil =>
        simp only [AnswersAll, step, hw, ht]
        exact ⟨h, by simp⟩
      | cons m rest =>
        obtain ⟨hmsg, hr⟩ := forall_mem_cons.mp (ht ▸ h.messages)
        obtain ⟨htoApi', hret, hapi⟩ : (s.receive m rest).toApi = rest ∧
            (s.receive m rest).returned = s.returned ∧
            (s.receive m rest).api = (s.api.receive m).1 := by
          unfold receive
          split
          next heq => simp [heq]
          next heq => simp [heq]
        simp only [AnswersAll, Unlimited, step, hw, ht, ← hret]
        refine loopTop (htoApi'.symm ▸ hr) fun hde => ⟨rfl, ?_⟩
        obtain ⟨hids, ho⟩ := h.waiting wait hw hde
        exact ⟨hids, hapi.symm ▸ ho.receive hmsg⟩
  | deadlineReached =>
    simp only [AnswersAll, Unlimited, step]
    split
    next wait hw ht =>
      split
      next hl =>
        rw [hw]
        exact loopTop h.messages fun hde => nomatch hl.symm.trans hde
      · exact ⟨h, by simp⟩
    · exact ⟨h, by simp⟩
  | pollBegin =>
    simp only [AnswersAll, step]
    split
    · exact ⟨h.of_worker rfl rfl h.messages, by simp⟩
    · exact ⟨h, by simp⟩
  | pollNext out =>
    simp only [AnswersAll, step]
    split
    · unfold pollNext
      split
      · exact ⟨h, by simp⟩
      cases out with
      | pending => exact ⟨h.of_worker rfl rfl h.messages, by simp⟩
      | ready res =>
        refine ⟨h.of_worker rfl rfl (forall_mem_append.mpr ⟨h.messages, ?_⟩), by simp⟩
        refine forall_mem_singleton.mpr ?_
        cases res with
        | error error => exact nofun
        | ok value =>
          rintro ⟨⟩
          exact hon
    · exact ⟨h, by simp⟩
  | pollEnd =>
    simp only [AnswersAll, step]
    split
    · unfold pollEnd
      split
      · exact ⟨h.of_worker rfl rfl h.messages, by simp⟩
      · exact ⟨h.of_worker rfl rfl h.messages, by simp⟩
    · exact ⟨h, by simp⟩

end System

/-- In every run whose calls without a deadline wait for distinct ids, the responses of which are
still to be handed out, no such call reports that a deadline was reached. -/
theorem answersAll_of_waitsOnce (nextId : IpfsRequestId) {actions : List (Action N Q)}
    (h : Run.Each step WaitsOnce (start N Q nextId) actions) :
    Run.Each step AnswersAll (start N Q nextId) actions := by
  have hst : Answering (start N Q nextId) := ⟨nofun, forall_mem_nil _⟩
  have halw := Run.Each.always (fun _ _ hs ho => (hs.step ho).1) hst h
  intro pre a hpre
  have ha := halw pre ((prefix_append pre [a]).trans hpre)
  exact (ha.step (h pre a hpre)).2

/-- Two requests are started, and waited for while the worker completes one after the other. -/
def waitRun (ids : List IpfsRequestId) : List (Action .trivial Unit) :=
  [.requestStart (), .requestStart (), .responseWait ids false, .pollBegin, .pollEnd, .pollBegin,
    .pollNext (.ready (.ok (.catBytes .empty))), .pollEnd, .receive, .pollBegin,
    .pollNext (.ready (.ok (.catBytes .empty))), .pollEnd, .receive]

theorem answersAll_waitRun :
    Run.Each step AnswersAll (start .trivial Unit 0) (waitRun [1, 0]) := by
  refine answersAll_of_waitsOnce 0 ?_
  simp only [waitRun, Run.each_cons, Run.each_nil, WaitsOnce, and_true, true_and]
  refine fun _ => ⟨by decide, ?_⟩
  simp only [forall_mem_cons]
  refine ⟨?_, ?_, forall_mem_nil _⟩ <;> rintro ⟨⟩

/-- The same id twice: the second slot finds the placeholder. -/
theorem not_answersAll_waitRun :
    ¬ Run.Each step AnswersAll (start .trivial Unit 0) (waitRun [0, 0]) := by
  intro h
  have hrec := h ((waitRun [0, 0]).take 8) .receive (prefix_append _ _) rfl
    [.finished (.catBytes ⟨[], by decide⟩), .deadlineReached] (mem_singleton.mpr rfl)
  simp at hrec

end Client
