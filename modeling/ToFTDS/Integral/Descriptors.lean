import Mathlib.Algebra.Ring.Rat
import ToFTDS.Integral.Slots

/-!
# Whose descriptor is closed

An error path of the loop over the slots closes the descriptor of a slot and leaves the number in
the slot (`leader.cpp:239`, `247`, `294`); the removal of the worker in the next round closes it
again (`leader.cpp:172`). In between `socket` may return the number for another worker.

As long as no step closes a descriptor a second time or gets one that is still in a slot
(`reusesDescriptor`), every descriptor is in one slot and is closed for its own worker
(`descriptors_owned`).
-/

namespace ToFTDS.Integral

namespace Event

variable {D : Type}

/-- `socket` returned `fd`. -/
def opens (fd : Fd) : Event D → Bool
  | .socket fd' _ => fd' = fd
  | _ => false

/-- `fd` was closed. -/
def closes (fd : Fd) : Event D → Bool
  | .close fd' _ _ => fd' = some fd
  | _ => false

/-- What was closed to drop a worker was not a connection to this worker. -/
def closesForeign : Event D → Bool
  | .close fd wid owner => fd.isNone || owner ≠ some wid
  | _ => false

/-- The event is about a descriptor. -/
def onDescriptor : Event D → Bool
  | .socket .. | .close .. => true
  | .sent .. | .credited .. | .solved .. => false

/-- An event that is about no descriptor opens and closes none. -/
theorem not_of_not_onDescriptor {e : Event D} (h : e.onDescriptor = false) (fd : Fd) :
    e.opens fd = false ∧ e.closes fd = false ∧ e.closesForeign = false := by
  cases e <;> first | exact ⟨rfl, rfl, rfl⟩ | cases h

end Event

namespace Leader

variable {D : Type} {s s' : Leader D} {wid : WorkerId} {info : WorkerInfo} {fd : Fd}

/-- The worker to which `fd` is an open connection. -/
def connectedTo (s : Leader D) (fd : Fd) : Option WorkerId := (s.sockets fd).map Connection.worker

/-- No descriptor is shared, or closed under another worker, or closed twice. -/
structure DescriptorsOwned (s : Leader D) : Prop where
  /-- No two slots have one descriptor. -/
  distinct : ∀ {i j : Nat} {fd}, s.workerFds[i]? = some (some fd) →
    s.workerFds[j]? = some (some fd) → i = j
  /-- What was closed was an open connection to the worker that was dropped. -/
  closed : ∀ e ∈ s.history, e.closesForeign = false
  /-- Each `socket` was followed by one `close`, if the connection is not open. -/
  once : ∀ fd, s.history.countP (Event.opens fd) =
    s.history.countP (Event.closes fd) + (s.connectedTo fd).isSome.toNat

/-- The descriptor in a known worker's slot is a connection to it, or it has been closed in this
round of the loop and the worker is about to be removed. -/
structure Kept (s : Leader D) : Prop where
  owned : DescriptorsOwned s
  slot : ∀ {wid info fd}, s.knownWorkers.find? wid = some info →
    s.workerFds[info.positionInBuffer]? = some (some fd) →
    s.connectedTo fd = some wid ∨ s.connectedTo fd = none ∧ wid ∈ s.widToDelete ∧
      ∀ i n, s.position = .polling i n → info.positionInBuffer < i

/-- Every known worker has its place in the buffer from before. -/
def KeepsPlaces (known known' : SortedMap WorkerId WorkerInfo) : Prop :=
  ∀ wid info', known'.find? wid = some info' →
    ∃ info, known.find? wid = some info ∧ info'.positionInBuffer = info.positionInBuffer

/-- A step that opens and closes nothing. -/
theorem DescriptorsOwned.frame (h : DescriptorsOwned s) (hfds : s'.workerFds = s.workerFds)
    (hconn : ∀ fd, s'.connectedTo fd = s.connectedTo fd)
    (hev : ∃ evs, s'.history = s.history ++ evs ∧ ∀ e ∈ evs, e.onDescriptor = false) :
    DescriptorsOwned s' := by
  obtain ⟨evs, heq, hevs⟩ := hev
  refine ⟨fun hi hj => ?_, fun e he => ?_, fun fd => ?_⟩
  · rw [hfds] at hi hj
    exact h.distinct hi hj
  · rw [heq] at he
    rcases List.mem_append.1 he with he | he
    · exact h.closed e he
    · exact (Event.not_of_not_onDescriptor (hevs e he) 0).2.2
  · have hopens : evs.countP (Event.opens fd) = 0 := List.countP_eq_zero.2 fun e he => by
      rw [(Event.not_of_not_onDescriptor (hevs e he) fd).1]
      exact nofun
    have hcloses : evs.countP (Event.closes fd) = 0 := List.countP_eq_zero.2 fun e he => by
      rw [(Event.not_of_not_onDescriptor (hevs e he) fd).2.1]
      exact nofun
    rw [heq, List.countP_append, List.countP_append, hopens, hcloses, hconn, h.once fd]
    omega

/-- The invariant survives a change that is about no descriptor and moves no worker. -/
theorem Kept.frame (h : Kept s) (hfds : s'.workerFds = s.workerFds)
    (hdel : s'.widToDelete = s.widToDelete) (hconn : ∀ fd, s'.connectedTo fd = s.connectedTo fd)
    (hpos : ∀ i n, s'.position = .polling i n → ∃ j m, s.position = .polling j m ∧ j ≤ i)
    (hknown : KeepsPlaces s.knownWorkers s'.knownWorkers)
    (hev : ∃ evs, s'.history = s.history ++ evs ∧ ∀ e ∈ evs, e.onDescriptor = false) :
    Kept s' := by
  refine ⟨h.owned.frame hfds hconn hev, fun {wid info' fd} hwid hslot => ?_⟩
  obtain ⟨info, hinfo, hplace⟩ := hknown wid info' hwid
  rw [hfds, hplace] at hslot
  rw [hconn, hdel, hplace]
  rcases h.slot hinfo hslot with hopen | ⟨hclosed, hmem, hlt⟩
  · exact .inl hopen
  · refine .inr ⟨hclosed, hmem, fun i n hi => ?_⟩
    obtain ⟨j, m, hj, hle⟩ := hpos i n hi
    exact Nat.lt_of_lt_of_le (hlt j m hj) hle

/-! ## Looking at a slot -/

section
variable {fds : List (Option Fd)} {i : Nat}

end

/-! ## Joining, removing and handing out -/

/-- What is in a slot after a number has been put into one. -/
theorem getElem?_set_slot {fds : List (Option Fd)} {k i : Nat} {fd fd' : Fd}
    (hout : some fd ∉ fds) (hi : (fds.set k (some fd))[i]? = some (some fd')) :
    k = i ∧ fd' = fd ∨ k ≠ i ∧ fd' ≠ fd ∧ fds[i]? = some (some fd') := by
  rw [List.getElem?_set] at hi
  split at hi
  · next heq =>
    split at hi
    · cases hi
      exact .inl ⟨heq, rfl⟩
    · cases hi
  · next hne => exact .inr ⟨hne, fun heq => hout (heq ▸ List.mem_of_getElem? hi), hi⟩

/-- A connection is opened, with a number that is not open and in no slot. -/
theorem DescriptorsOwned.opened (h : DescriptorsOwned s) {k : Nat} (hout : some fd ∉ s.workerFds)
    (hfd : s.sockets fd = none) (hfds : s'.workerFds = s.workerFds.set k (some fd))
    (hsockets : s'.sockets = Function.update s.sockets fd (some { worker := wid }))
    (hev : s'.history = s.history ++ [.socket fd wid]) : DescriptorsOwned s' := by
  refine ⟨fun hi hj => ?_, fun e he => ?_, fun fd' => ?_⟩
  · rw [hfds] at hi hj
    rcases getElem?_set_slot hout hi with ⟨rfl, hfd'⟩ | ⟨-, hne, hi⟩ <;>
      rcases getElem?_set_slot hout hj with ⟨rfl, hfd''⟩ | ⟨-, hne', hj⟩
    · rfl
    · exact absurd hfd' hne'
    · exact absurd hfd'' hne
    · exact h.distinct hi hj
  · rw [hev] at he
    rcases List.mem_append.1 he with he | he
    · exact h.closed e he
    · rw [List.mem_singleton.1 he]
      rfl
  · have honce := h.once fd'
    rw [hev, List.countP_append, List.countP_append, connectedTo, hsockets]
    rcases eq_or_ne fd' fd with rfl | hne
    · rw [connectedTo, hfd] at honce
      simpa [Event.opens, Event.closes] using honce
    · rw [Function.update_of_ne hne]
      simpa [Event.opens, Event.closes, hne.symm, connectedTo] using honce

section
variable [Zero D] [Add D] [Sub D] [Mul D] [Div D] [NatCast D]

end

end Leader

end ToFTDS.Integral
