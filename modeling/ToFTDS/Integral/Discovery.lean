import ToFTDS.Integral.Messages
import ToFTDS.Integral.Owners

/-!
# How workers are discovered

The leader broadcasts the word `Leader` (`leader.cpp:309`). A worker answers every datagram with its
workload port as a decimal number (`worker.cpp:66`), and the leader takes the number that
`std::stoi` finds in any other datagram for the id of a worker (`leader.cpp:324`). Datagrams are
lost, repeated and overtaken, and the leader is prepared to get its own broadcast back.

A `Discovery` is the leader with all that it does elsewhere, the sockets of both sides, and the
datagrams in flight. In every run the leader makes sense of each datagram, and the ids of the
workers it knows are workload ports of workers. So the `ENSURE` of the loop over the slots passes if
no worker has as small a port as `max_workers` (`only_workers_discovered`); and each worker can be
discovered at any time (`discoverable`).
-/

namespace ToFTDS.Integral

/-! ## Numbers in a text -/

/-- `std::stoi`: the number at the beginning of a text, after blanks. It throws if there is none or
if it is no `int`. -/
def stoi (text : List Char) : Option Int :=
  let sign := takeSign (text.dropWhile isspace)
  let digits := (takeDigits sign.2).1
  let value := Numeral.signed sign.1 (digitsValue digits)
  if digits ≠ [] ∧ -2 ^ 31 ≤ value ∧ value < 2 ^ 31 then some value else none

/-- What `std::to_string` makes of an unsigned number is read back, if it fits. -/
theorem stoi_printUnsigned {w : Nat} {n : BitVec w} (hn : n.toNat < 2 ^ 31) :
    stoi (printUnsigned n) = some (n.toNat : Int) := by
  have hdigits : Digits (printUnsigned n) := digits_toDigits n.toNat
  have hne : printUnsigned n ≠ [] := Nat.toDigits_ne_nil
  have hblank : (printUnsigned n).dropWhile isspace = printUnsigned n := by
    obtain ⟨c, l, hl⟩ := List.exists_cons_of_ne_nil hne
    rw [hl, List.dropWhile_cons_of_neg]
    rw [isspace_eq_false (.inl (hdigits c (hl ▸ List.mem_cons_self)))]
    exact Bool.false_ne_true
  have hsign : takeSign (printUnsigned n) = (false, printUnsigned n) := by
    have h := takeSign_digits hdigits hne []
    rwa [List.append_nil] at h
  have htake : takeDigits (printUnsigned n) = (printUnsigned n, []) := by
    have h : takeDigits (printUnsigned n ++ []) = (printUnsigned n, []) :=
      takeDigits_exact hdigits (by simp)
    rwa [List.append_nil] at h
  have hvalue : digitsValue (printUnsigned n) = n.toNat := digitsValue_toDigits n.toNat
  rw [stoi, hblank, hsign]
  dsimp only
  rw [htake, hvalue, Numeral.signed, if_neg Bool.false_ne_true, if_pos ⟨hne, by omega, by omega⟩]

/-! ## The protocol -/

/-- The discovery socket of the leader, or of the worker with this workload port. -/
inductive Endpoint where
  | leader
  | worker (workloadPort : BitVec 16)
  deriving DecidableEq

/-- A datagram, with the address it comes from. -/
structure Datagram where
  src : Endpoint
  dst : Endpoint
  data : List Char
  deriving DecidableEq

/-- The workload ports of the workers, the leader, the datagrams in flight, and those that have
arrived at a socket. -/
structure Discovery (D : Type) where
  ports : List (BitVec 16)
  leader : Leader D
  network : List Datagram := []
  received : Endpoint → List Datagram := fun _ => []

/-- The steps of both sides and of the network. -/
inductive DiscoveryOp (D : Type) where
  /-- `SendDiscoveryMessage` sends. -/
  | broadcast
  /-- A datagram in flight arrives, and may arrive again. -/
  | arrive (k : Nat)
  | lose (k : Nat)
  /-- `WaitForDiscovery` of a worker handles a datagram. -/
  | waitForDiscovery (port : BitVec 16)
  /-- `ReceiveDiscoveryMessage` handles a datagram. -/
  | receiveDiscoveryMessage
  /-- Another step of the leader. -/
  | work (op : AnyOp D)

/-- `kLeaderMessage` (`leader.h:74`). -/
def leaderMessage : List Char := ['L', 'e', 'a', 'd', 'e', 'r']

/-- `kMaxMessageSize` (`socket.cpp:10`). -/
def maxMessageSize : Nat := 100

/-- The handler of `ReceiveDiscoveryMessage` (`leader.cpp:328`). The `int` becomes a `uint64_t`. -/
def Leader.discover {D : Type} (s : Leader D) (data : List Char) : Option (Leader D) :=
  if data = leaderMessage then some s
  else
    (stoi data).map fun port =>
      { s with hbUpdates := s.hbUpdates.add (BitVec.ofInt 64 port).toNat }

/-- A step that discovers a worker. -/
def AnyOp.discovers {D : Type} : AnyOp D → Bool
  | .op (.discovered _) => true
  | _ => false

namespace Discovery

variable {D : Type}

/-- The leader and the workers at `ports` before anything has been sent. -/
def init (ports : List (BitVec 16)) (maxWorkers : Nat) : Discovery D where
  ports := ports
  leader := .init maxWorkers

/-- `recvfrom` in `OnReceiveAsync` (`socket.cpp:18`), which cuts a datagram off after
`kMaxMessageSize` bytes. Without one there is nothing to do until the next round. -/
def recvfrom (s : Discovery D) (e : Endpoint) : Option (Datagram × Discovery D) :=
  match s.received e with
  | [] => none
  | d :: rest =>
    some ({ d with data := d.data.take maxMessageSize },
      { s with received := Function.update s.received e rest })

/-- `sendto`. -/
def sendto (s : Discovery D) (src dst : Endpoint) (data : List Char) : Discovery D :=
  { s with network := s.network ++ [{ src, dst, data }] }

/-- The broadcast of `SendDiscoveryMessage` (`leader.cpp:316`), which reaches every worker's socket.
The leader's own is not bound to the port, but its handler allows for it. -/
def broadcast (s : Discovery D) : Discovery D :=
  { s with
    network := s.network ++ (.leader :: s.ports.map .worker).map fun dst =>
      { src := .leader, dst := dst, data := leaderMessage } }

/-- One step. There is none where the source throws, and for a socket at which nothing has
arrived. -/
def step [Zero D] [Add D] [Sub D] [Mul D] [Div D] [NatCast D] (s : Discovery D) :
    DiscoveryOp D → Option (Discovery D)
  | .broadcast => some s.broadcast
  | .arrive k =>
    s.network[k]?.map fun d =>
      { s with received := Function.update s.received d.dst (s.received d.dst ++ [d]) }
  | .lose k => some { s with network := s.network.eraseIdx k }
  | .waitForDiscovery port =>
    if port ∈ s.ports then
      (s.recvfrom (.worker port)).map fun r =>
        r.2.sendto (.worker port) r.1.src (printUnsigned port)
    else none
  | .receiveDiscoveryMessage =>
    (s.recvfrom .leader).bind fun r =>
      (s.leader.discover r.1.data).map fun leader => { r.2 with leader := leader }
  | .work op =>
    if op.discovers then none
    else (s.leader.anyStep op).map fun leader => { s with leader := leader }

/-! ## What datagrams say -/

/-- The leader's broadcast, or a worker's answer to the leader. -/
def Genuine (ports : List (BitVec 16)) (d : Datagram) : Prop :=
  d.src = .leader ∧ d.data = leaderMessage ∨
    ∃ port ∈ ports, d.src = .worker port ∧ d.dst = .leader ∧ d.data = printUnsigned port

/-- All datagrams are genuine, and have arrived where they were sent to. -/
structure Authentic (s : Discovery D) : Prop where
  network : ∀ d ∈ s.network, Genuine s.ports d
  received : ∀ e, ∀ d ∈ s.received e, Genuine s.ports d ∧ d.dst = e

/-- No port is written like the leader's message. -/
theorem printUnsigned_ne_leaderMessage {w : Nat} (n : BitVec w) :
    printUnsigned n ≠ leaderMessage := by
  intro h
  have hdigit : Digits (printUnsigned n) := digits_toDigits n.toNat
  exact absurd (hdigit 'L' (h ▸ List.mem_cons_self)) (by decide)

/-- A port has no more digits than the buffer has room for. -/
theorem length_printUnsigned_port (port : BitVec 16) :
    (printUnsigned port).length ≤ maxMessageSize := by
  have hport : port.toNat < 2 ^ 16 := port.isLt
  have hlength : (printUnsigned port).length ≤ 5 :=
    (Nat.length_toDigits_le_iff (by decide) (by decide)).2 (by omega)
  exact Nat.le_trans hlength (by decide)

/-- No genuine datagram is cut off. -/
theorem Genuine.take_data {ports : List (BitVec 16)} {d : Datagram} (h : Genuine ports d) :
    d.data.take maxMessageSize = d.data := by
  refine List.take_of_length_le ?_
  rcases h with ⟨-, heq⟩ | ⟨port, -, -, -, heq⟩
  · rw [heq]
    decide
  · rw [heq]
    exact length_printUnsigned_port port

/-- The leader takes no notice of its own message. -/
theorem discover_leaderMessage (s : Leader D) : s.discover leaderMessage = some s := if_pos rfl

/-- A datagram with a port adds it to the heartbeats. -/
theorem discover_printUnsigned (s : Leader D) (port : BitVec 16) :
    s.discover (printUnsigned port) =
      some { s with hbUpdates := s.hbUpdates.add port.toNat } := by
  have hport : port.toNat < 2 ^ 16 := port.isLt
  rw [Leader.discover, if_neg (printUnsigned_ne_leaderMessage port),
    stoi_printUnsigned (by omega), Option.map_some]
  have hid : (BitVec.ofInt 64 (port.toNat : Int)).toNat = port.toNat := by
    rw [BitVec.ofInt_natCast, BitVec.toNat_ofNat, Nat.mod_eq_of_lt (by omega)]
  rw [hid]

end Discovery

/-! ## The ids of the workers -/

namespace Leader

variable {D : Type} {s s' : Leader D} {ids : List WorkerId} {n : Nat}

/-- All ids that the leader knows are among `ids`, and it has `n` slots. -/
structure KnowsOnly (ids : List WorkerId) (n : Nat) (s : Leader D) : Prop where
  hbUpdates : ∀ wid, s.hbUpdates.contains wid = true → wid ∈ ids
  joining : ∀ {upd u}, s.position = .joining upd u → ∀ wid ∈ upd, wid ∈ ids
  known : ∀ wid ∈ s.knownWorkers.keys, wid ∈ ids
  slots : s.workerFds.length = n

/-- The heartbeats and the number of slots are the same. -/
def SameOutside (s s' : Leader D) : Prop :=
  s'.hbUpdates = s.hbUpdates ∧ s'.workerFds.length = s.workerFds.length

/-- What stays the same twice in a row stays the same. -/
theorem SameOutside.trans {s₁ : Leader D} (h : SameOutside s s₁) (h' : SameOutside s₁ s') :
    SameOutside s s' := ⟨h'.1.trans h.1, h'.2.trans h.2⟩

/-- Receiving a reply adds no heartbeat and no slot. -/
theorem sameOutside_receive [Add D] {fd : Fd} {wid : WorkerId} {r : Received D}
    (h : s.receive fd wid r = some s') : SameOutside s s' := by
  rcases receive_cases h with ⟨-, rfl⟩ | ⟨k, conn, task, query, -, -, -, rfl | ⟨value, -, rfl⟩⟩
  · exact ⟨rfl, rfl⟩
  · exact ⟨rfl, rfl⟩
  · unfold credit
    dsimp only
    split <;> exact ⟨rfl, rfl⟩

/-- Sending a task adds no heartbeat and no slot. -/
theorem sameOutside_sendTask {fds : List (Option Fd)} {i : Nat} {fd : Fd} {wid : WorkerId}
    {ok : Bool} (hl : LooksAt fds i fd wid s) (h : s.sendTask fd wid ok = some s') :
    SameOutside s s' := by
  obtain ⟨info, hinfo, -⟩ := hl.known
  rcases sendTask_cases hinfo h with rfl | ⟨-, -, rfl⟩ | ⟨conn, task, a, b, -, -, -, rfl⟩
  · exact ⟨rfl, rfl⟩
  · exact ⟨rfl, rfl⟩
  · exact ⟨rfl, rfl⟩

/-- A look at a slot adds no heartbeat and no slot. -/
theorem sameOutside_look [Add D] {p : Polled D} (ht : Tidy s) (h : s.look p = some s') :
    SameOutside s s' := by
  obtain ⟨i, m, -, rfl | ⟨fd, t, u, -, hlu, -, ht', hu, hs'⟩⟩ := look_stages ht h
  · exact ⟨rfl, rfl⟩
  · have hst : SameOutside s t := by
      rcases ht' with ⟨-, rfl⟩ | ⟨-, rfl⟩
      · exact ⟨rfl, rfl⟩
      · exact ⟨rfl, rfl⟩
    have hsu : SameOutside s u := by
      rcases hu with rfl | ⟨r, -, hr⟩
      · exact hst
      · exact hst.trans (sameOutside_receive hr)
    rcases hs' with rfl | ⟨ok, -, hok⟩
    · exact hsu
    · exact hsu.trans (sameOutside_sendTask hlu hok)

/-- Removing workers adds no heartbeat and no slot. -/
theorem sameOutside_removeWorkers : SameOutside s s.removeWorkers.1 := by
  refine List.foldlRecOn (motive := fun st : Leader D × List (QueryId × TaskId) =>
    SameOutside s st.1) _ _ ⟨rfl, rfl⟩ fun st hst wid _ => ?_
  rcases removeWorker_cases st wid with heq | ⟨info, fd, -, heq⟩
  · rw [heq]
    exact hst
  · rw [heq]
    exact hst.trans ⟨rfl, List.length_set⟩

/-- Handing out tasks adds no heartbeat and no slot. -/
theorem sameOutside_reassign (tasks : List (QueryId × TaskId)) :
    SameOutside s (s.reassign tasks).1 := by
  refine List.foldlRecOn (motive := fun st : Leader D × SortedSet (Nat ×ₗ WorkerId) =>
    SameOutside s st.1) _ _ ⟨rfl, rfl⟩ fun st hst task _ => ?_
  unfold assignTask
  split
  · exact hst
  · exact hst.trans ⟨rfl, rfl⟩

/-- An assignment adds no heartbeat and no slot. -/
theorem sameOutside_assign (h : s.assign = some s') : SameOutside s s' := by
  obtain ⟨u, -, ⟨-, rfl⟩ | ⟨-, m, rfl⟩⟩ := assign_cases h
  · rw [foldl_queries (f := returnTask) (fun _ _ => rfl)]
    exact sameOutside_removeWorkers.trans ⟨rfl, rfl⟩
  · exact (sameOutside_removeWorkers.trans (sameOutside_reassign _)).trans ⟨rfl, rfl⟩

namespace KnowsOnly

/-- The leader knows nobody at the start. -/
theorem init (ids : List WorkerId) (n : Nat) : KnowsOnly ids n (Leader.init n : Leader D) where
  hbUpdates wid h := by cases h
  joining h := by cases h
  known wid h := by cases h
  slots := List.length_replicate

/-- What adds no ids. -/
theorem frame (h : KnowsOnly ids n s) (hsame : SameOutside s s')
    (hpos : ∀ {upd u}, s'.position = .joining upd u → ∀ wid ∈ upd, wid ∈ ids)
    (hkeys : ∀ wid ∈ s'.knownWorkers.keys, wid ∈ s.knownWorkers.keys) : KnowsOnly ids n s' where
  hbUpdates := hsame.1 ▸ h.hbUpdates
  joining := hpos
  known wid hwid := h.known wid (hkeys wid hwid)
  slots := hsame.2.trans h.slots

/-- A heartbeat of one of the ids adds no other. -/
theorem discover (h : KnowsOnly ids n s) {wid : WorkerId} (hwid : wid ∈ ids) :
    KnowsOnly ids n { s with hbUpdates := s.hbUpdates.add wid } := by
  refine ⟨fun wid' hmem => ?_, h.joining, h.known, h.slots⟩
  rw [SortedSet.contains_add, Bool.or_eq_true, decide_eq_true_eq] at hmem
  rcases hmem with rfl | hmem
  · exact hwid
  · exact h.hbUpdates wid' hmem

/-- A worker that joins has sent a heartbeat. -/
theorem join (h : KnowsOnly ids n s) {fd : Fd} (hs : s.join fd = some s') : KnowsOnly ids n s' := by
  obtain ⟨wid, upd, u, hpos, hs'⟩ := join_cases hs
  have hupd := h.joining hpos
  have hrest : ∀ wid' ∈ upd, wid' ∈ ids := fun wid' hmem => hupd wid' (List.mem_cons_of_mem _ hmem)
  rcases hs' with ⟨rfl, -⟩ | ⟨-, ⟨rfl, -⟩ | ⟨-, -, rfl⟩⟩
  · refine h.frame ⟨rfl, rfl⟩ (fun heq => ?_) fun _ => id
    cases heq
    exact hrest
  · refine h.frame ⟨rfl, rfl⟩ (fun heq => ?_) fun _ => id
    cases heq
    exact hrest
  · refine ⟨h.hbUpdates, fun heq => ?_, fun wid' hmem => ?_, ?_⟩
    · cases heq
      exact hrest
    · rw [SortedMap.mem_keys, SortedMap.contains_insert, Bool.or_eq_true, decide_eq_true_eq] at hmem
      rcases hmem with rfl | hmem
      · exact hupd wid' List.mem_cons_self
      · exact h.known wid' ((SortedMap.mem_keys _).2 hmem)
    · exact List.length_set.trans h.slots

/-- No step but a discovery adds ids. -/
theorem anyStep [Zero D] [Add D] [Sub D] [Mul D] [Div D] [NatCast D] (h : KnowsOnly ids n s)
    (ht : Tidy s) {op : AnyOp D} (hop : op.discovers = false) (hs : s.anyStep op = some s') :
    KnowsOnly ids n s' := by
  cases op with
  | misread fd task =>
    obtain ⟨conn, -, rfl⟩ := Option.map_eq_some_iff.1 hs
    exact h.frame ⟨rfl, rfl⟩ h.joining fun _ => id
  | op o =>
    cases o with
    | getResult a b =>
      cases hs
      exact h.frame ⟨rfl, rfl⟩ h.joining fun _ => id
    | discovered wid => cases hop
    | start =>
      obtain ⟨-, rfl⟩ := start_cases hs
      rw [foldl_queries (f := addQuery) (fun _ _ => rfl)]
      refine ⟨fun wid hmem => ?_, fun heq => ?_, h.known, h.slots⟩
      · cases hmem
      · cases heq
        exact fun wid hmem => h.hbUpdates wid ((SortedSet.mem_toList _ _).1 hmem)
    | join fd => exact h.join hs
    | assign =>
      obtain ⟨hpos, hkeys⟩ := assign_keys hs
      refine h.frame (sameOutside_assign hs) (fun heq => ?_) fun wid hmem => ?_
      · cases hpos.symm.trans heq
      · exact (List.mem_filter.1 (hkeys ▸ hmem)).1
    | look p =>
      obtain ⟨i, m, -, hpos, hkeys⟩ := look_keys ht hs
      refine h.frame (sameOutside_look ht hs) (fun heq => ?_) fun wid hmem => hkeys ▸ hmem
      cases hpos.symm.trans heq
    | sleep =>
      rw [sleep_cases hs]
      exact h.frame ⟨rfl, rfl⟩ (fun heq => by cases heq) fun _ => id

/-- There are no more known workers than slots. -/
theorem length_keys_le (h : KnowsOnly ids n s) (ht : Tidy s) : s.knownWorkers.keys.length ≤ n := by
  have hmaps : ∀ e ∈ s.knownWorkers.entries, e.2.positionInBuffer < n := by
    intro e he
    obtain ⟨fd, hfd⟩ := ht.slots.opened ((s.knownWorkers.mem_entries).1 he)
    exact h.slots ▸ (List.getElem?_eq_some_iff.1 hfd).1
  have hnodup : (s.knownWorkers.entries.map fun e => e.2.positionInBuffer).Nodup := by
    refine s.knownWorkers.nodup_entries.map_on fun e he e' he' heq => ?_
    have he := (s.knownWorkers.mem_entries).1 he
    have he' := (s.knownWorkers.mem_entries).1 he'
    exact s.knownWorkers.eq_of_mem_entries (s.knownWorkers.mem_entries.2 he)
      (s.knownWorkers.mem_entries.2 he') (ht.slots.eq_of_position_eq he he' heq)
  have hsubset : (s.knownWorkers.entries.map fun e => e.2.positionInBuffer) ⊆ List.range n := by
    intro i hi
    obtain ⟨e, he, rfl⟩ := List.mem_map.1 hi
    exact List.mem_range.2 (hmaps e he)
  have hle := (hnodup.subperm hsubset).length_le
  rwa [List.length_map, List.length_range, ← SortedMap.length_keys] at hle

/-- The number of workers is none of their ids if these are past the number of slots. -/
theorem numberIsId_eq_false (h : KnowsOnly ids n s) (ht : Tidy s) (hids : ∀ wid ∈ ids, n < wid) :
    s.numberIsId = false := by
  refine decide_eq_false fun hmem => ?_
  have hid := hids _ (h.known _ (List.mem_filter.1 hmem).1)
  have hle : s.remaining.length ≤ s.knownWorkers.keys.length := List.length_filter_le _ _
  have := h.length_keys_le ht
  omega

end KnowsOnly

end Leader

namespace Discovery

variable {D : Type} {s s' : Discovery D} {ports : List (BitVec 16)} {maxWorkers : Nat}

/-! ## Runs -/

/-- What is received is the first datagram that has arrived, cut to the buffer. -/
theorem recvfrom_eq_some {e : Endpoint} {r : Datagram × Discovery D}
    (h : s.recvfrom e = some r) : ∃ d rest, s.received e = d :: rest ∧
      r = ({ d with data := d.data.take maxMessageSize },
        { s with received := Function.update s.received e rest }) := by
  unfold recvfrom at h
  split at h
  · cases h
  · next d rest hrecv => exact ⟨d, rest, hrecv, (Option.some.inj h).symm⟩

/-- What has arrived stays genuine when a queue is replaced by genuine datagrams. -/
theorem forall_update {P : Endpoint → Datagram → Prop} {received : Endpoint → List Datagram}
    {e : Endpoint} {l : List Datagram} (h : ∀ e, ∀ d ∈ received e, P e d) (hl : ∀ d ∈ l, P e d) :
    ∀ e', ∀ d ∈ Function.update received e l e', P e' d := by
  intro e' d hd
  rcases eq_or_ne e' e with rfl | hne
  · rw [Function.update_self] at hd
    exact hl d hd
  · rw [Function.update_of_ne hne] at hd
    exact h e' d hd

/-- What every step keeps: only genuine datagrams, only ports of workers as ids, and a check that
passes if all ports are past `max_workers`. -/
structure Sound (ports : List (BitVec 16)) (maxWorkers : Nat) (s : Discovery D) : Prop where
  ports_eq : s.ports = ports
  authentic : s.Authentic
  tidy : s.leader.Tidy
  passing : (∀ port ∈ ports, maxWorkers < port.toNat) → s.leader.Passing
  knowsOnly : s.leader.KnowsOnly (ports.map BitVec.toNat) maxWorkers

/-- Nothing has been sent at the start. -/
theorem sound_init (ports : List (BitVec 16)) (maxWorkers : Nat) :
    Sound ports maxWorkers (init ports maxWorkers : Discovery D) where
  ports_eq := rfl
  authentic := ⟨by simp [init], by simp [init]⟩
  tidy := Leader.tidy_init maxWorkers
  passing _ := ⟨Leader.tidy_init maxWorkers, fun hpos => by cases hpos⟩
  knowsOnly := .init _ maxWorkers

/-- The leader makes sense of a genuine datagram. -/
theorem discover_cases {d : Datagram} (h : Genuine ports d) (leader : Leader D) :
    (d.data = leaderMessage ∧ leader.discover (d.data.take maxMessageSize) = some leader) ∨
      ∃ port ∈ ports, d.data = printUnsigned port ∧
        leader.discover (d.data.take maxMessageSize) =
          some { leader with hbUpdates := leader.hbUpdates.add port.toNat } := by
  rw [h.take_data]
  rcases h with ⟨-, heq⟩ | ⟨port, hport, -, -, heq⟩
  · exact .inl ⟨heq, by rw [heq, discover_leaderMessage]⟩
  · exact .inr ⟨port, hport, heq, by rw [heq, discover_printUnsigned]⟩

section
variable [Zero D] [Add D] [Sub D] [Mul D] [Div D] [NatCast D]

/-- The leader receives every genuine datagram without a throw, and takes a worker's port from it.
-/
theorem sound_receive (hs : Sound ports maxWorkers s) {d : Datagram} {rest : List Datagram}
    (hrecv : s.received .leader = d :: rest) : ∃ leader,
      step s .receiveDiscoveryMessage =
        some { s with
          received := Function.update s.received .leader rest
          leader := leader } ∧
      Sound ports maxWorkers { s with
          received := Function.update s.received .leader rest
          leader := leader } ∧
      leader = { s.leader with hbUpdates := leader.hbUpdates } ∧
      ∀ port : BitVec 16, d.data = printUnsigned port →
        leader.hbUpdates.contains port.toNat = true := by
  have hall := hs.authentic.received .leader
  rw [hrecv] at hall
  have hgenuine := hs.ports_eq ▸ (hall d List.mem_cons_self).1
  have hauthentic : ∀ leader : Leader D, Authentic { s with
      received := Function.update s.received .leader rest
      leader := leader } := fun leader => ⟨hs.authentic.network,
    forall_update hs.authentic.received fun d hd => hall d (List.mem_cons_of_mem _ hd)⟩
  have hstep : step s .receiveDiscoveryMessage =
      (s.leader.discover (d.data.take maxMessageSize)).map fun leader =>
        { s with
          received := Function.update s.received .leader rest
          leader := leader } := by
    simp only [step, recvfrom, hrecv, Option.bind_some]
  rcases discover_cases hgenuine s.leader with ⟨heq, hdisc⟩ | ⟨port, hport, heq, hdisc⟩
  · rw [hdisc] at hstep
    refine ⟨_, hstep, ⟨hs.ports_eq, hauthentic _, hs.tidy, hs.passing, hs.knowsOnly⟩, rfl, ?_⟩
    intro port hport
    exact absurd (hport.symm.trans heq) (printUnsigned_ne_leaderMessage port)
  · rw [hdisc] at hstep
    have htidy : Leader.Tidy { s.leader with hbUpdates := s.leader.hbUpdates.add port.toNat } :=
      ⟨hs.tidy.slots, hs.tidy.cursor⟩
    refine ⟨_, hstep, ⟨hs.ports_eq, hauthentic _, htidy, fun hports => ?_, ?_⟩, rfl, ?_⟩
    · exact ⟨htidy, (hs.passing hports).not_id⟩
    · exact hs.knowsOnly.discover (List.mem_map_of_mem hport)
    · intro port' hport'
      have hsame : port'.toNat = port.toNat := by
        have := congrArg digitsValue (hport'.symm.trans heq)
        rwa [printUnsigned, printUnsigned, digitsValue_toDigits, digitsValue_toDigits] at this
      rw [hsame, SortedSet.contains_add, decide_eq_true rfl, Bool.true_or]

/-- Every step keeps all datagrams genuine and all known ids those of workers. -/
theorem sound_step (hs : Sound ports maxWorkers s) {op : DiscoveryOp D} (h : step s op = some s') :
    Sound ports maxWorkers s' := by
  cases op with
  | broadcast =>
    cases h
    refine ⟨hs.ports_eq, ⟨fun d hd => ?_, hs.authentic.received⟩, hs.tidy, hs.passing,
      hs.knowsOnly⟩
    rcases List.mem_append.1 hd with hd | hd
    · exact hs.authentic.network d hd
    · obtain ⟨dst, -, rfl⟩ := List.mem_map.1 hd
      exact .inl ⟨rfl, rfl⟩
  | arrive k =>
    obtain ⟨d, hd, rfl⟩ := Option.map_eq_some_iff.1 h
    refine ⟨hs.ports_eq, ⟨hs.authentic.network, forall_update hs.authentic.received ?_⟩,
      hs.tidy, hs.passing, hs.knowsOnly⟩
    intro d' hd'
    rcases List.mem_append.1 hd' with hd' | hd'
    · exact hs.authentic.received d.dst d' hd'
    · cases List.mem_singleton.1 hd'
      exact ⟨hs.authentic.network d (List.mem_of_getElem? hd), rfl⟩
  | lose k =>
    cases h
    exact ⟨hs.ports_eq, ⟨fun d hd => hs.authentic.network d (List.mem_of_mem_eraseIdx hd),
      hs.authentic.received⟩, hs.tidy, hs.passing, hs.knowsOnly⟩
  | waitForDiscovery port =>
    simp only [step] at h
    split at h
    · next hport =>
      obtain ⟨r, hr, rfl⟩ := Option.map_eq_some_iff.1 h
      obtain ⟨d, rest, hrecv, rfl⟩ := recvfrom_eq_some hr
      have hall := hs.authentic.received (.worker port)
      rw [hrecv] at hall
      refine ⟨hs.ports_eq, ⟨fun d' hd' => ?_, forall_update hs.authentic.received fun d' hd' =>
        hall d' (List.mem_cons_of_mem _ hd')⟩, hs.tidy, hs.passing, hs.knowsOnly⟩
      rcases List.mem_append.1 hd' with hd' | hd'
      · exact hs.authentic.network d' hd'
      · cases List.mem_singleton.1 hd'
        -- the worker was asked by the leader
        obtain ⟨⟨hsrc, -⟩ | ⟨_, -, -, hdst, -⟩, hmine⟩ := hall d List.mem_cons_self
        · exact .inr ⟨port, hport, rfl, hsrc, rfl⟩
        · rw [hmine] at hdst
          cases hdst
    · cases h
  | receiveDiscoveryMessage =>
    obtain ⟨r, hr, -⟩ := Option.bind_eq_some_iff.1 h
    obtain ⟨d, rest, hrecv, -⟩ := recvfrom_eq_some hr
    obtain ⟨leader, hstep, hsound, -⟩ := sound_receive hs hrecv
    cases hstep.symm.trans h
    exact hsound
  | work op =>
    simp only [step] at h
    split at h
    · cases h
    · next hop =>
      obtain ⟨leader, hleader, rfl⟩ := Option.map_eq_some_iff.1 h
      refine ⟨hs.ports_eq, ⟨hs.authentic.network, hs.authentic.received⟩,
        Leader.tidy_anyStep op hs.tidy hleader,
        fun hports => Leader.passing_step op (hs.passing hports) ?_ hleader,
        hs.knowsOnly.anyStep hs.tidy (Bool.eq_false_iff.2 hop) hleader⟩
      have hids : s.leader.numberIsId = false := by
        refine hs.knowsOnly.numberIsId_eq_false hs.tidy fun wid hwid => ?_
        obtain ⟨port, hport, rfl⟩ := List.mem_map.1 hwid
        exact hports port hport
      unfold Leader.startsWithId
      split
      · exact hids
      · rfl

/-- After a run all datagrams are genuine and all known ids those of workers. -/
theorem sound_run {ops : List (DiscoveryOp D)}
    (hrun : Run.exec step ops (init ports maxWorkers) = some s) : Sound ports maxWorkers s :=
  Run.exec_invariant' (fun _ _ _ hs h => sound_step hs h) (sound_init ports maxWorkers) hrun

/-- **Only workers are discovered.** In every run of the leader and the workers, with datagrams
lost, repeated and overtaken, the ids that the leader knows are workload ports of workers, and the
leader makes sense of whatever it receives. If all these ports are past `max_workers`, the `ENSURE`
of the loop over the slots passes. -/
theorem only_workers_discovered {ops : List (DiscoveryOp D)}
    (hrun : Run.exec step ops (init ports maxWorkers) = some s) :
    (∀ wid ∈ s.leader.knownWorkers.keys, ∃ port ∈ ports, wid = port.toNat) ∧
      (s.received .leader ≠ [] → (step s .receiveDiscoveryMessage).isSome) ∧
      ((∀ port ∈ ports, maxWorkers < port.toNat) → s.leader.ensureThrows = false) := by
  have hs := sound_run hrun
  refine ⟨fun wid hwid => ?_, fun hne => ?_, fun hports => ?_⟩
  · obtain ⟨port, hport, heq⟩ := List.mem_map.1 (hs.knowsOnly.known wid hwid)
    exact ⟨port, hport, heq.symm⟩
  · obtain ⟨d, rest, hrecv⟩ := List.exists_cons_of_ne_nil hne
    obtain ⟨leader, hstep, -⟩ := sound_receive hs hrecv
    rw [hstep]
    rfl
  · exact (hs.passing hports).ensureThrows_eq_false

/-- A worker at port 5001 hears the leader, answers and is joined. -/
def firstDiscovery : List (DiscoveryOp ℚ) :=
  [.broadcast, .arrive 1, .waitForDiscovery 5001, .arrive 0, .arrive 2, .receiveDiscoveryMessage,
    .receiveDiscoveryMessage, .work (.op .start), .work (.op (.join 3))]

/-- The worker at port 5001 is known after its answer. -/
theorem exec_firstDiscovery : ∃ s, Run.exec step firstDiscovery (init [5001] 10) = some s ∧
    s.leader.knownWorkers.keys = [5001] := by
  have h : (Run.exec step firstDiscovery (init [5001] 10)).any
      (fun s => decide (s.leader.knownWorkers.keys = [5001])) = true := by decide +kernel
  obtain ⟨s, hrun, hkeys⟩ := Run.exists_of_any h
  exact ⟨s, hrun, of_decide_eq_true hkeys⟩

/-- The worker at port 5001 is the only one known, and the leader does not throw. -/
theorem only_workers_discovered_firstDiscovery : ∃ s : Discovery ℚ,
    Run.exec step firstDiscovery (init [5001] 10) = some s ∧
    s.leader.knownWorkers.keys = [5001] ∧
    (∀ wid ∈ s.leader.knownWorkers.keys, ∃ port ∈ [(5001 : BitVec 16)], wid = port.toNat) ∧
    s.leader.ensureThrows = false := by
  obtain ⟨s, hrun, hkeys⟩ := exec_firstDiscovery
  have h := only_workers_discovered hrun
  exact ⟨s, hrun, hkeys, h.1, h.2.2 (by simp)⟩

/-! ## Every worker can be discovered -/

/-- A datagram in flight can arrive. -/
theorem exists_arrived {d : Datagram} (hd : d ∈ s.network) : ∃ k s',
    step s (.arrive k) = some s' ∧ s'.received d.dst = s.received d.dst ++ [d] ∧
      s'.ports = s.ports ∧ s'.leader = s.leader := by
  obtain ⟨k, hk⟩ := List.mem_iff_getElem?.1 hd
  refine ⟨k, { s with received := Function.update s.received d.dst (s.received d.dst ++ [d]) },
    ?_, Function.update_self .., rfl, rfl⟩
  rw [step, hk, Option.map_some]

/-- A worker answers all that has arrived, in order. -/
theorem exists_answered {port : BitVec 16} {d : Datagram} :
    ∀ {l : List Datagram} {s : Discovery D}, port ∈ s.ports →
      s.received (.worker port) = l ++ [d] → ∃ n s',
        Run.exec step (List.replicate n (.waitForDiscovery port)) s = some s' ∧
        s'.leader = s.leader ∧
        { src := .worker port, dst := d.src, data := printUnsigned port } ∈ s'.network := by
  intro l
  induction l with
  | nil =>
    intro s hport hrecv
    have hstep : step s (.waitForDiscovery port) = some (sendto { s with
        received := Function.update s.received (.worker port) [] } (.worker port) d.src
          (printUnsigned port)) := by
      simp [step, recvfrom, hport, hrecv]
    exact ⟨1, _, Run.exec_cons_eq.2 ⟨_, hstep, rfl⟩, rfl,
      List.mem_append_right _ (List.mem_singleton.2 rfl)⟩
  | cons d' l ih =>
    intro s hport hrecv
    have hstep : step s (.waitForDiscovery port) = some (sendto { s with
        received := Function.update s.received (.worker port) (l ++ [d]) } (.worker port) d'.src
          (printUnsigned port)) := by
      simp [step, recvfrom, hport, hrecv]
    obtain ⟨n, s', hrun, hleader, hmem⟩ := ih (s := sendto { s with
        received := Function.update s.received (.worker port) (l ++ [d]) } (.worker port) d'.src
          (printUnsigned port)) hport (Function.update_self (Endpoint.worker port) _ _)
    exact ⟨n + 1, s', Run.exec_cons_eq.2 ⟨_, hstep, hrun⟩, hleader, hmem⟩

/-- The leader hears all that has arrived, in order. -/
theorem exists_heard {port : BitVec 16} {d : Datagram} (hd : d.data = printUnsigned port) :
    ∀ {l : List Datagram} {s : Discovery D}, Sound ports maxWorkers s →
      s.received .leader = l ++ [d] → ∃ n s',
        Run.exec step (List.replicate n .receiveDiscoveryMessage) s = some s' ∧
        s'.leader = { s.leader with hbUpdates := s'.leader.hbUpdates } ∧
        s'.leader.hbUpdates.contains port.toNat = true := by
  intro l
  induction l with
  | nil =>
    intro s hs hrecv
    obtain ⟨leader, hstep, -, hsame, hheard⟩ := sound_receive hs hrecv
    exact ⟨1, _, Run.exec_cons_eq.2 ⟨_, hstep, rfl⟩, hsame, hheard port hd⟩
  | cons d' l ih =>
    intro s hs hrecv
    obtain ⟨leader, hstep, hs', hsame, -⟩ := sound_receive hs hrecv
    obtain ⟨n, s', hrun, hsame', hheard⟩ := ih hs' (by simp)
    refine ⟨n + 1, s', Run.exec_cons_eq.2 ⟨_, hstep, hrun⟩, ?_, hheard⟩
    rw [hsame', hsame]

/-- **Every worker can be discovered at any time.** From every state that the leader and the workers
reach, a broadcast, the worker's answer and both their ways through the network are possible,
whatever else has arrived before; then the leader has heard of the worker, and nothing else about
the leader has changed. -/
theorem discoverable {ops : List (DiscoveryOp D)}
    (hrun : Run.exec step ops (init ports maxWorkers) = some s) {port : BitVec 16}
    (hport : port ∈ ports) : ∃ j m k n s',
      Run.exec step ([.broadcast, .arrive j] ++ List.replicate m (.waitForDiscovery port) ++
        [.arrive k] ++ List.replicate n .receiveDiscoveryMessage) s = some s' ∧
      s'.leader = { s.leader with hbUpdates := s'.leader.hbUpdates } ∧
      s'.leader.hbUpdates.contains port.toNat = true := by
  have hs := sound_run hrun
  -- the broadcast arrives at the worker
  have hasked : { src := .leader, dst := .worker port, data := leaderMessage } ∈
      s.broadcast.network := by
    refine List.mem_append_right _ (List.mem_map_of_mem (List.mem_cons_of_mem _ ?_))
    exact List.mem_map_of_mem (hs.ports_eq ▸ hport)
  obtain ⟨j, s₁, h₁, hrecv₁, hports₁, hleader₁⟩ := exists_arrived hasked
  -- and its answer at the leader
  obtain ⟨m, s₂, h₂, hleader₂, hanswer⟩ :=
    exists_answered (hports₁ ▸ (hs.ports_eq ▸ hport : port ∈ s.ports)) hrecv₁
  obtain ⟨k, s₃, h₃, hrecv₃, -, hleader₃⟩ := exists_arrived hanswer
  have hrun₃ : Run.exec step ([.broadcast, .arrive j] ++
      List.replicate m (.waitForDiscovery port) ++ [.arrive k]) s = some s₃ := by
    refine Run.exec_append.2 ⟨s₂, Run.exec_append.2 ⟨s₁, ?_, h₂⟩, ?_⟩
    · exact Run.exec_cons_eq.2 ⟨s.broadcast, rfl, Run.exec_cons_eq.2 ⟨s₁, h₁, rfl⟩⟩
    · exact Run.exec_cons_eq.2 ⟨s₃, h₃, rfl⟩
  have hs₃ : Sound ports maxWorkers s₃ := sound_run (Run.exec_append.2 ⟨s, hrun, hrun₃⟩)
  obtain ⟨n, s', h', hleader', hheard⟩ := exists_heard rfl hs₃ hrecv₃
  have hsame : s₃.leader = s.leader := hleader₃.trans (hleader₂.trans hleader₁)
  rw [hsame] at hleader'
  exact ⟨j, m, k, n, s', Run.exec_append.2 ⟨s₃, hrun₃, h'⟩, hleader', hheard⟩

/-- The worker at port 5001 can be discovered again when it has been joined. -/
theorem discoverable_firstDiscovery : ∃ s s' : Discovery ℚ,
    Run.exec step firstDiscovery (init [5001] 10) = some s ∧
    s'.leader = { s.leader with hbUpdates := s'.leader.hbUpdates } ∧
    s'.leader.hbUpdates.contains 5001 = true := by
  obtain ⟨s, hrun, -⟩ := exec_firstDiscovery
  obtain ⟨-, -, -, -, s', -, hsame, hheard⟩ := discoverable hrun (List.mem_singleton.2 rfl)
  exact ⟨s, s', hrun, hsame, hheard⟩

end

end Discovery

end ToFTDS.Integral
