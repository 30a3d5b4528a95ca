import Mathlib.Data.Finset.Card
import Mathlib.Logic.Function.Basic
import ToFTDS.Lib.Splice

/-!
# Logs replicated by the leaders of successive terms

A `Ledger` is what a replication protocol with leaders does, with the history that its safety rests
on: replicas `N` with a current term and a log of entries `E`, and per term the candidates' logs,
the votes, the leader with its log (`canon`) as it grows, and how far each replica has acknowledged
that log (`held`). The protocol's moves are functions on ledgers: `raise`, `stand`, `grant`,
`elect`, `append` and `accept`. Each has the conditions under which the protocol makes it, and under
these it keeps `Ledger.Inv` and only adds to the history (`Ledger.Extends`). A term has at most one
leader because `elect` asks that it has none; how a protocol sees to that is its own business.

The result is `Ledger.Inv.leader_completeness`: an entry of its own term that a quorum holds
(`Ledger.Chosen`) is in the log of every later leader. Nothing is assumed of the quorums but that
any two of them meet.
-/

namespace ToFTDS

/-- More than half of the replicas. -/
def Majority {N : Type} (replicas q : Finset N) : Prop :=
  q ⊆ replicas ∧ replicas.card + 1 ≤ 2 * q.card

/-- Two majorities meet. -/
theorem Majority.inter {N : Type} {replicas q q' : Finset N} (h : Majority replicas q)
    (h' : Majority replicas q') : ∃ v ∈ q, v ∈ q' := by
  classical
  by_contra hno
  have hdisj : Disjoint q q' := Finset.disjoint_left.2 fun v hv hv' => hno ⟨v, hv, hv'⟩
  have hle := Finset.card_le_card (Finset.union_subset h.1 h'.1)
  rw [Finset.card_union_of_disjoint hdisj] at hle
  have h1 := h.2
  have h2 := h'.2
  omega

/-- A replicated log with the history of its terms. -/
structure Ledger (N E : Type) where
  /-- The current term of a replica. -/
  term : N → Nat
  /-- The log of a replica. -/
  log : N → List E
  /-- The leader of a term. -/
  leader : Nat → Option N
  /-- The log of the leader of a term, as far as it has grown in that term. -/
  canon : Nat → List E
  /-- The length of that log when the leader was elected. -/
  base : Nat → Nat
  /-- The log with which a replica has stood for election in a term. -/
  campaign : Nat → N → Option (List E)
  /-- `granted t v c`: in term `t` the replica `v` voted for `c`, before `t` had a leader. -/
  granted : Nat → N → N → Prop
  /-- The index up to which a replica has acknowledged the log of a term's leader. -/
  held : Nat → N → Nat

namespace Ledger

variable {N E : Type}

/-- The term has a log of its own: the leader's, or for term 0 the one all replicas start with. -/
def Led (a : Ledger N E) (t : Nat) : Prop := t = 0 ∨ (a.leader t).isSome

/-- The log with which the leader of a term was elected. -/
def baseLog (a : Ledger N E) (t : Nat) : List E := (a.canon t).take (a.base t)

/-- The history of `a` is part of the history of `a'`. -/
structure Extends (a a' : Ledger N E) : Prop where
  term : ∀ v, a.term v ≤ a'.term v
  leader : ∀ {t c}, a.leader t = some c → a'.leader t = some c
  canon : ∀ {t}, a.Led t → a.canon t <+: a'.canon t
  base : ∀ {t}, a.Led t → a'.base t = a.base t
  campaign : ∀ {t c l}, a.campaign t c = some l → a'.campaign t c = some l
  granted : ∀ {t v c}, a.granted t v c → a'.granted t v c
  held : ∀ t v, a.held t v ≤ a'.held t v

/-- A ledger extends itself. -/
theorem Extends.refl (a : Ledger N E) : Extends a a :=
  ⟨fun _ => Nat.le_refl _, id, fun _ => List.prefix_refl _, fun _ => rfl, id, id,
    fun _ _ => Nat.le_refl _⟩

/-- A term that has been led stays one that has been led. -/
theorem Extends.led {a a' : Ledger N E} (h : Extends a a') {t : Nat} (ht : a.Led t) :
    a'.Led t := by
  rcases ht with rfl | ht
  · exact .inl rfl
  · obtain ⟨c, hc⟩ := Option.isSome_iff_exists.1 ht
    exact .inr (by rw [h.leader hc]; rfl)

/-- What extends an extension extends the ledger. -/
theorem Extends.trans {a b c : Ledger N E} (h : Extends a b) (h' : Extends b c) : Extends a c where
  term v := Nat.le_trans (h.term v) (h'.term v)
  leader hl := h'.leader (h.leader hl)
  canon ht := (h.canon ht).trans (h'.canon (h.led ht))
  base ht := (h'.base (h.led ht)).trans (h.base ht)
  campaign hc := h'.campaign (h.campaign hc)
  granted hg := h'.granted (h.granted hg)
  held t v := Nat.le_trans (h.held t v) (h'.held t v)

section
variable (key : E → Nat)

/-- A log is well formed: up to each of its entries it is the log of the leader of that entry's
term. -/
def WfLog (a : Ledger N E) (l : List E) : Prop :=
  ∀ i e, l[i]? = some e → a.Led (key e) ∧ AgreeTo i l (a.canon (key e))

/-- Term `t` has a leader, with an entry of its own term at index `i`. -/
def Own (a : Ledger N E) (t i : Nat) : Prop :=
  (a.leader t).isSome ∧ ∃ e, (a.canon t)[i]? = some e ∧ key e = t

/-- The leader of term `t` was elected without the entries up to `i` of term `s`. -/
def Lacks (a : Ledger N E) (s i t : Nat) : Prop :=
  (a.leader t).isSome ∧ ¬ AgreeTo i (a.baseLog t) (a.canon s)

/-- `l` is at least as up to date as `l'`: its last term is larger, or the same and it is no
shorter. -/
def UpToDate (l l' : List E) : Prop :=
  ∀ e', l'.getLast? = some e' → ∃ e, l.getLast? = some e ∧
    (key e' < key e ∨ key e' = key e ∧ l'.length ≤ l.length)

/-- The invariant of a ledger. `survives` and `carried` are the heart of it: an entry of its own
term that a replica has acknowledged is in the replica's log, and in the log of every candidate it
votes for later, unless a leader in between lacked it. -/
structure Inv (Quorum : Finset N → Prop) (a : Ledger N E) : Prop where
  log_wf : ∀ v, a.WfLog key (a.log v)
  canon_wf : ∀ t, a.Led t → a.WfLog key (a.canon t)
  log_bound : ∀ v, ∀ e ∈ a.log v, key e ≤ a.term v
  canon_bound : ∀ t, a.Led t → ∀ e ∈ a.canon t, key e ≤ t
  base_bound : ∀ t, (a.leader t).isSome → ∀ e ∈ a.baseLog t, key e < t
  base_le : ∀ t, (a.leader t).isSome → a.base t ≤ (a.canon t).length
  campaign_wf : ∀ t c l, a.campaign t c = some l → a.WfLog key l ∧ ∀ e ∈ l, key e < t
  campaign_bound : ∀ t c l, a.campaign t c = some l → 0 < t ∧ t ≤ a.term c
  leader_bound : ∀ t c, a.leader t = some c → 0 < t ∧ t ≤ a.term c
  granted_bound : ∀ t v c, a.granted t v c → t ≤ a.term v
  granted_campaign : ∀ t v c, a.granted t v c → (a.campaign t c).isSome
  held_bound : ∀ t v, 0 < a.held t v →
    (a.leader t).isSome ∧ a.held t v < (a.canon t).length ∧ t ≤ a.term v
  elected : ∀ t c, a.leader t = some c →
    a.campaign t c = some (a.baseLog t) ∧ ∃ q, Quorum q ∧ ∀ v ∈ q, a.granted t v c
  survives : ∀ v t i, 0 < i → i ≤ a.held t v → a.Own key t i →
    AgreeTo i (a.log v) (a.canon t) ∨ ∃ u, t < u ∧ u ≤ a.term v ∧ a.Lacks t i u
  carried : ∀ u v c l, a.granted u v c → a.campaign u c = some l →
    ∀ t i, t < u → 0 < i → i ≤ a.held t v → a.Own key t i →
      AgreeTo i l (a.canon t) ∨ ∃ w, t < w ∧ w < u ∧ a.Lacks t i w

/-- An entry of its own term that a quorum has acknowledged to the term's leader. -/
def Chosen (Quorum : Finset N → Prop) (a : Ledger N E) (t i : Nat) : Prop :=
  0 < i ∧ a.Own key t i ∧ ∃ q, Quorum q ∧ ∀ v ∈ q, i ≤ a.held t v

/-! ## What an extension keeps -/

variable {key} {Quorum : Finset N → Prop} {a a' : Ledger N E} {t s u i : Nat} {l : List E}

/-- Up to an index that the leader's log has reached, agreeing with it does not depend on how far it
has grown. -/
theorem Extends.agree_canon (h : Extends a a') (ht : a.Led t) (hi : i < (a.canon t).length) :
    AgreeTo i l (a'.canon t) ↔ AgreeTo i l (a.canon t) :=
  agreeTo_extend (h.canon ht) hi

/-- A well-formed log is so in every extension. -/
theorem Extends.wfLog (h : Extends a a') (hl : a.WfLog key l) : a'.WfLog key l := by
  intro i e he
  obtain ⟨hled, hag⟩ := hl i e he
  exact ⟨h.led hled, (h.agree_canon hled hag.lt_right).2 hag⟩

/-- A log that grows to the log of a term by that term's own entries stays well formed. -/
theorem Extends.wfLog_append (h : Extends a a') {l es : List E} {t : Nat}
    (hl : a.WfLog key l) (ht : a'.Led t) (hcan : a'.canon t = l ++ es) (hes : ∀ e ∈ es, key e = t) :
    a'.WfLog key (l ++ es) := by
  intro i e he
  rcases Nat.lt_or_ge i l.length with hlt | hge
  · rw [List.getElem?_append_left hlt] at he
    obtain ⟨h1, h2⟩ := h.wfLog hl i e he
    exact ⟨h1, ((agreeTo_of_isPrefix (List.prefix_append _ _) hlt).symm).trans h2⟩
  · have hi : i < (l ++ es).length := (List.getElem?_eq_some_iff.1 he).1
    rw [List.getElem?_append_right hge] at he
    rw [hes e (List.mem_of_getElem? he), hcan]
    exact ⟨ht, AgreeTo.refl hi⟩

/-- With what a leader began, an extension begins it too. -/
theorem Extends.baseLog (h : Extends a a') (ht : a.Led t)
    (hb : a.base t ≤ (a.canon t).length) : a'.baseLog t = a.baseLog t := by
  obtain ⟨r, hr⟩ := h.canon ht
  rw [Ledger.baseLog, Ledger.baseLog, h.base ht, ← hr, List.take_append_of_le_length hb]

/-- An own entry is in the leader's log. -/
theorem Own.lt (h : a.Own key t i) : i < (a.canon t).length := by
  obtain ⟨-, e, he, -⟩ := h
  exact (List.getElem?_eq_some_iff.1 he).1

/-- A term with a leader keeps one. -/
theorem Extends.leader_isSome (h : Extends a a') (ht : (a.leader t).isSome) :
    (a'.leader t).isSome := by
  obtain ⟨c, hc⟩ := Option.isSome_iff_exists.1 ht
  rw [h.leader hc]
  rfl

/-- An own entry stays one. -/
theorem Extends.own (h : Extends a a') (ho : a.Own key t i) : a'.Own key t i := by
  have hag := agreeTo_of_isPrefix (h.canon (.inr ho.1)) ho.lt
  obtain ⟨hsome, e, he, hk⟩ := ho
  exact ⟨h.leader_isSome hsome, e, by rw [← hag.getElem?_eq (Nat.le_refl i), he], hk⟩

/-- What the leader of a term lacks, it lacks in every extension. -/
theorem Extends.lacks (hI : a.Inv key Quorum) (h : Extends a a') (hs : a.Led s)
    (hi : i < (a.canon s).length) (hl : a.Lacks s i t) : a'.Lacks s i t := by
  obtain ⟨hsome, hno⟩ := hl
  refine ⟨h.leader_isSome hsome, ?_⟩
  rwa [h.baseLog (.inr hsome) (hI.base_le t hsome), h.agree_canon hs hi]

/-- What is chosen stays chosen. -/
theorem Extends.chosen (h : Extends a a') (hc : a.Chosen key Quorum t i) :
    a'.Chosen key Quorum t i := by
  obtain ⟨hi, hown, q, hq, hheld⟩ := hc
  exact ⟨hi, h.own hown, q, hq, fun v hv => Nat.le_trans (hheld v hv) (h.held t v)⟩

/-- An acknowledged index that has its own term in an extension had it before. -/
theorem Inv.own_back (hI : a.Inv key Quorum) (h : Extends a a') {v : N} (hi : 0 < i)
    (hh : i ≤ a.held t v) (ho : a'.Own key t i) : a.Own key t i := by
  obtain ⟨hsome, hlt, -⟩ := hI.held_bound t v (Nat.lt_of_lt_of_le hi hh)
  have hag := agreeTo_of_isPrefix (h.canon (.inr hsome)) (i := i) (by omega)
  obtain ⟨-, e, he, hk⟩ := ho
  exact ⟨hsome, e, by rw [hag.getElem?_eq (Nat.le_refl i), he], hk⟩

/-- What a replica keeps of its acknowledgements it keeps in an extension, as long as its log does
not change. -/
theorem Inv.survives_extends (hI : a.Inv key Quorum) (hx : Extends a a') {v : N} (hi : 0 < i)
    (hh : i ≤ a.held t v) (ho : a'.Own key t i) :
    AgreeTo i (a.log v) (a'.canon t) ∨ ∃ u, t < u ∧ u ≤ a'.term v ∧ a'.Lacks t i u := by
  have ho' := hI.own_back hx hi hh ho
  rcases hI.survives v t i hi hh ho' with h | ⟨u, h1, h2, h3⟩
  · exact .inl ((hx.agree_canon (.inr ho'.1) ho'.lt).2 h)
  · exact .inr ⟨u, h1, Nat.le_trans h2 (hx.term v), hx.lacks hI (.inr ho'.1) ho'.lt h3⟩

/-- What a vote carries over it carries over in an extension. -/
theorem Inv.carried_extends (hI : a.Inv key Quorum) (hx : Extends a a') {v c : N}
    (hg : a.granted u v c) (hc : a.campaign u c = some l) (htu : t < u) (hi : 0 < i)
    (hh : i ≤ a.held t v) (ho : a'.Own key t i) :
    AgreeTo i l (a'.canon t) ∨ ∃ w, t < w ∧ w < u ∧ a'.Lacks t i w := by
  have ho' := hI.own_back hx hi hh ho
  rcases hI.carried u v c l hg hc t i htu hi hh ho' with h | ⟨w, h1, h2, h3⟩
  · exact .inl ((hx.agree_canon (.inr ho'.1) ho'.lt).2 h)
  · exact .inr ⟨w, h1, h2, hx.lacks hI (.inr ho'.1) ho'.lt h3⟩

/-! ## Leader completeness -/

/-- Every later leader was elected with every chosen entry: the quorum that holds the entry meets
the quorum that elected the leader, and a common member's vote carries the entry over unless a
leader in between lacked it, which the induction on the term excludes. -/
theorem Inv.agree_baseLog (hI : a.Inv key Quorum)
    (hq : ∀ q q', Quorum q → Quorum q' → ∃ v ∈ q, v ∈ q')
    (hc : a.Chosen key Quorum t i) (htu : t < u) (hu : (a.leader u).isSome) :
    AgreeTo i (a.baseLog u) (a.canon t) := by
  induction u using Nat.strong_induction_on with
  | _ u ih =>
    obtain ⟨hi, hown, q, hqq, hheld⟩ := hc
    obtain ⟨c, hlead⟩ := Option.isSome_iff_exists.1 hu
    obtain ⟨hcamp, q', hq', hgr⟩ := hI.elected u c hlead
    obtain ⟨v, hv, hv'⟩ := hq q q' hqq hq'
    rcases hI.carried u v c _ (hgr v hv') hcamp t i htu hi (hheld v hv) hown
      with h | ⟨w, h1, h2, h3⟩
    · exact h
    · exact absurd (ih w h2 h1 h3.1) h3.2

/-- **Leader completeness.** The log of the leader of a term and the log of the leader of any later
term agree up to every chosen index. -/
theorem Inv.leader_completeness (hI : a.Inv key Quorum)
    (hq : ∀ q q', Quorum q → Quorum q' → ∃ v ∈ q, v ∈ q')
    (hc : a.Chosen key Quorum t i) (htu : t ≤ u) (hu : (a.leader u).isSome) :
    AgreeTo i (a.canon u) (a.canon t) := by
  rcases Nat.eq_or_lt_of_le htu with rfl | hlt
  · exact AgreeTo.refl hc.2.1.lt
  · have h := hI.agree_baseLog hq hc hlt hu
    have hb := h.lt_left
    rw [baseLog, List.length_take] at hb
    exact ((agreeTo_take (by omega) (by omega)).symm).trans h

/-! ## Settled beginnings -/

variable (key Quorum) in
/-- The log `l` is settled up to index `k` by the terms up to `t`: it starts with `root`, and what
follows is covered by a chosen entry of one of these terms. -/
def Settled (root : E) (a : Ledger N E) (t : Nat) (l : List E) (k : Nat) : Prop :=
  AgreeTo 0 l [root] ∧
    (k = 0 ∨ ∃ s i, s ≤ t ∧ a.Chosen key Quorum s i ∧ k ≤ i ∧ AgreeTo k l (a.canon s))

section
variable {root : E} {l' : List E} {k k' t' : Nat}

/-- What is settled up to an index is in the log up to it. -/
theorem Settled.lt (h : Settled key Quorum root a t l k) : k < l.length := by
  obtain ⟨h0, rfl | ⟨s, i, -, -, -, hag⟩⟩ := h
  · exact h0.lt_left
  · exact hag.lt_left

/-- What terms up to `t` have settled, terms up to a later one have. -/
theorem Settled.mono (h : Settled key Quorum root a t l k) (ht : t ≤ t') :
    Settled key Quorum root a t' l k := by
  refine h.imp id fun h => h.imp id ?_
  rintro ⟨s, i, hs, hc⟩
  exact ⟨s, i, Nat.le_trans hs ht, hc⟩

/-- What is settled stays settled. -/
theorem Settled.extends (h : Settled key Quorum root a t l k) (hx : Extends a a') :
    Settled key Quorum root a' t l k := by
  refine h.imp id fun h => h.imp id ?_
  rintro ⟨s, i, hs, hc, hk, hag⟩
  exact ⟨s, i, hs, hx.chosen hc, hk, (hx.agree_canon (.inr hc.2.1.1) hag.lt_right).2 hag⟩

/-- Only the settled beginning matters. -/
theorem Settled.congr (h : Settled key Quorum root a t l k) (hl : AgreeTo k l' l) :
    Settled key Quorum root a t l' k := by
  refine ⟨(hl.mono (Nat.zero_le k)).trans h.1, h.2.imp id ?_⟩
  rintro ⟨s, i, hs, hc, hk, hag⟩
  exact ⟨s, i, hs, hc, hk, hl.trans hag⟩

/-- A settled beginning is in the log of the leader of any later term. -/
theorem Inv.agree_of_settled (hI : a.Inv key Quorum)
    (hq : ∀ q q', Quorum q → Quorum q' → ∃ v ∈ q, v ∈ q')
    (h : Settled key Quorum root a t l k) (htu : t ≤ u) (hu : (a.leader u).isSome)
    (h0 : AgreeTo 0 (a.canon u) [root]) : AgreeTo k l (a.canon u) := by
  obtain ⟨hl, rfl | ⟨s, i, hs, hc, hk, hag⟩⟩ := h
  · exact hl.trans h0.symm
  · exact hag.trans (((hI.leader_completeness hq hc (Nat.le_trans hs htu) hu).mono hk).symm)

/-- **Settled beginnings agree.** Of two settled beginnings the shorter one is the beginning of the
longer one. -/
theorem Inv.settled_agree (hI : a.Inv key Quorum)
    (hq : ∀ q q', Quorum q → Quorum q' → ∃ v ∈ q, v ∈ q')
    (h : Settled key Quorum root a t l k) (h' : Settled key Quorum root a t' l' k')
    (hk : k ≤ k') : AgreeTo k l l' := by
  have hl := h.1.trans h'.1.symm
  obtain ⟨-, rfl | ⟨s, i, -, hc, hki, hag⟩⟩ := h
  · exact hl
  obtain ⟨-, rfl | ⟨s', i', -, hc', hki', hag'⟩⟩ := h'
  · rwa [Nat.le_zero.1 hk]
  -- the leader of the later of the two terms has what is chosen in the other
  have hss : AgreeTo k (a.canon s) (a.canon s') := by
    rcases Nat.le_total s s' with hle | hle
    · exact ((hI.leader_completeness hq hc hle hc'.2.1.1).mono hki).symm
    · exact (hI.leader_completeness hq hc' hle hc.2.1.1).mono (Nat.le_trans hk hki')
  exact (hag.trans hss).trans (hag'.mono hk).symm

end

/-- Two logs that are well formed and have an entry of the same term at an index agree up to it. -/
theorem agreeTo_of_wfLog {l l' : List E} {e e' : E} (hl : a.WfLog key l) (hl' : a.WfLog key l')
    (he : l[i]? = some e) (he' : l'[i]? = some e') (hk : key e = key e') : AgreeTo i l l' :=
  (hl i e he).2.trans (hk ▸ (hl' i e' he').2.symm)

/-- The beginning of the slice is common to the replica's log and the leader's. -/
theorem Inv.agree_at (hI : a.Inv key Quorum) {v : N} {p : Nat} (ht : (a.leader t).isSome)
    {e e' : E} (he : (a.log v)[p]? = some e) (he' : (a.canon t)[p]? = some e')
    (hk : key e = key e') : AgreeTo p (a.log v) (a.canon t) :=
  agreeTo_of_wfLog (hI.log_wf v) (hI.canon_wf t (.inr ht)) he he' hk

/-! ## A vote carries over what the voter has acknowledged -/

/-- An entry of a log that entries of a term have been put into is one of the old log, or one of the
term's. -/
theorem WfLog.splice [DecidableEq E] {l es : List E} {t p : Nat} (hl : a.WfLog key l)
    (hcan : a.WfLog key (a.canon t))
    (hag : AgreeTo p l (a.canon t)) (hsl : SliceOf p es (a.canon t)) :
    a.WfLog key (splice (p + 1) es l) := by
  intro i e he
  rcases Nat.lt_or_ge (p + es.length) i with hlt | hle
  · rcases splice_eq_or_length (s := p + 1) es hag.lt_left with heq | hlen
    · rw [heq] at he ⊢
      exact hl i e he
    · have := (List.getElem?_eq_some_iff.1 he).1
      omega
  · have hi := (agreeTo_splice_end hag hsl).mono hle
    rw [hi.getElem?_eq (Nat.le_refl i)] at he
    obtain ⟨h1, h2⟩ := hcan i e he
    exact ⟨h1, hi.trans h2⟩

/-- A leader that does not lack the entries of an earlier term up to `i` was elected with them. -/
theorem agree_canon_of_not_lacks {t i s : Nat} (hs : (a.leader s).isSome) (h : ¬ a.Lacks t i s) :
    i < a.base s ∧ AgreeTo i (a.canon s) (a.canon t) := by
  have hb : AgreeTo i (a.baseLog s) (a.canon t) := by
    by_contra hno
    exact h ⟨hs, hno⟩
  have hlt := hb.lt_left
  rw [baseLog, List.length_take] at hlt
  exact ⟨by omega, (agreeTo_take (by omega) (by omega)).symm.trans hb⟩

/-- The vote that `v` gives to a candidate whose log is as up to date as its own carries over what
`v` has acknowledged. -/
theorem Inv.vote_carries (hI : a.Inv key Quorum) {v c : N}
    (hfree : a.leader (a.term v) = none) (hc : a.campaign (a.term v) c = some l)
    (hup : UpToDate key l (a.log v)) (hi : 0 < i) (hh : i ≤ a.held t v) (ho : a.Own key t i) :
    AgreeTo i l (a.canon t) ∨ ∃ w, t < w ∧ w < a.term v ∧ a.Lacks t i w := by
  rcases hI.survives v t i hi hh ho with hag | ⟨u, h1, h2, h3⟩
  swap
  · -- the leader of the vote's own term does not exist yet
    have hne : u ≠ a.term v := by
      rintro rfl
      rw [Lacks, hfree] at h3
      cases h3.1
    exact .inr ⟨u, h1, by omega, h3⟩
  obtain ⟨hwf, hlt⟩ := hI.campaign_wf _ c l hc
  -- the last entry of the voter's log is of term `t` or later
  obtain ⟨hsome, e, he, hk⟩ := ho
  have hel : (a.log v)[i]? = some e := (hag.getElem?_eq (Nat.le_refl i)).trans he
  obtain ⟨ev, hev⟩ : ∃ ev, (a.log v).getLast? = some ev := by
    cases hlast : (a.log v).getLast? with
    | none =>
      rw [List.getLast?_eq_none_iff.1 hlast] at hel
      cases hel
    | some ev => exact ⟨ev, rfl⟩
  have hlv := hag.lt_left
  have hev' := hev
  rw [List.getLast?_eq_getElem?] at hev'
  obtain ⟨hledv, hagv⟩ := hI.log_wf v _ ev hev'
  have htv : t ≤ key ev := by
    rw [← hk]
    refine hI.canon_bound _ hledv e ?_
    rw [hagv.getElem?_eq (by omega)] at hel
    exact List.mem_of_getElem? hel
  -- so is that of the candidate's log
  obtain ⟨el, hell, hcmp⟩ := hup ev hev
  have hell' := hell
  rw [List.getLast?_eq_getElem?] at hell'
  obtain ⟨hledl, hagl⟩ := hwf _ el hell'
  have hmem : el ∈ l := List.mem_of_getLast? hell
  rcases Nat.eq_or_lt_of_le (show t ≤ key el by omega) with heq | hgt
  · left
    rw [heq]
    exact hagl.mono (by omega)
  · by_cases hl : a.Lacks t i (key el)
    · exact .inr ⟨_, hgt, hlt el hmem, hl⟩
    · left
      have hsl : (a.leader (key el)).isSome := by
        rcases hledl with h0 | h
        · omega
        · exact h
      obtain ⟨hib, hct⟩ := agree_canon_of_not_lacks hsl hl
      -- the candidate's last entry is past what that leader was elected with
      have hbase : a.base (key el) ≤ l.length - 1 := by
        by_contra hlt'
        have hel' := (hagl.getElem?_eq (Nat.le_refl _)).symm.trans hell'
        have : el ∈ a.baseLog (key el) := by
          refine List.mem_of_getElem? (i := l.length - 1) ?_
          rw [baseLog, List.getElem?_take, if_pos (by omega), hel']
        exact absurd (hI.base_bound _ hsl el this) (Nat.lt_irrefl _)
      exact (hagl.mono (by omega)).trans hct

end

/-! ## The moves -/

/-- The ledger in which nothing has happened, with all logs holding only `root`. -/
def init (root : E) : Ledger N E where
  term _ := 0
  log _ := [root]
  leader _ := none
  canon _ := [root]
  base _ := 0
  campaign _ _ := none
  granted _ _ _ := False
  held _ _ := 0

/-- The invariant holds of the ledger in which nothing has happened, if the root has the key 0. -/
theorem init_inv {key : E → Nat} {Quorum : Finset N → Prop} (root : E) (h : key root = 0) :
    (init (N := N) root).Inv key Quorum where
  log_wf v := by
    intro i e he
    have : i < 1 := (List.getElem?_eq_some_iff.1 he).1
    obtain rfl : i = 0 := by omega
    cases he
    exact ⟨.inl h, AgreeTo.refl (Nat.zero_lt_one)⟩
  canon_wf t _ := by
    intro i e he
    have : i < 1 := (List.getElem?_eq_some_iff.1 he).1
    obtain rfl : i = 0 := by omega
    cases he
    exact ⟨.inl h, AgreeTo.refl (Nat.zero_lt_one)⟩
  log_bound v e he := by
    cases List.mem_singleton.1 he
    exact Nat.le_of_eq h
  canon_bound t _ e he := by
    cases List.mem_singleton.1 he
    exact Nat.le_trans (Nat.le_of_eq h) (Nat.zero_le t)
  base_bound _ ht := by cases ht
  base_le _ ht := by cases ht
  campaign_wf _ _ _ hc := by cases hc
  campaign_bound _ _ _ hc := by cases hc
  leader_bound _ _ hc := by cases hc
  granted_bound _ _ _ hg := hg.elim
  granted_campaign _ _ _ hg := hg.elim
  held_bound _ _ hh := absurd hh (Nat.lt_irrefl 0)
  elected _ _ hc := by cases hc
  survives _ _ _ hi hh _ := absurd (Nat.lt_of_lt_of_le hi hh) (Nat.lt_irrefl 0)
  carried _ _ _ _ hg := hg.elim

/-- The replica `v` votes for `c` in its term. -/
def grant (a : Ledger N E) (v c : N) : Ledger N E :=
  { a with granted t w d := a.granted t w d ∨ t = a.term v ∧ w = v ∧ d = c }

/-- The replica `c` becomes the leader of its term. -/
def elect (a : Ledger N E) (c : N) : Ledger N E :=
  { a with
    leader := Function.update a.leader (a.term c) (some c)
    canon := Function.update a.canon (a.term c) (a.log c)
    base := Function.update a.base (a.term c) (a.log c).length }

section
variable {key : E → Nat} {Quorum : Finset N → Prop} {a : Ledger N E}

/-- `grant` adds to the history. -/
theorem extends_grant (v c : N) : Extends a (a.grant v c) :=
  { Extends.refl a with granted := fun hg => .inl hg }

/-- A vote for a candidate of a term without a leader keeps the invariant, if the candidate's log is
at least as up to date as the voter's. -/
theorem Inv.grant (hI : a.Inv key Quorum) {v c : N} {l : List E}
    (hfree : a.leader (a.term v) = none) (hc : a.campaign (a.term v) c = some l)
    (hup : UpToDate key l (a.log v)) : (a.grant v c).Inv key Quorum :=
  have hx := extends_grant (a := a) v c
  { hI with
    granted_bound := fun t w d hg => by
      rcases hg with hg | ⟨rfl, rfl, rfl⟩
      · exact hI.granted_bound t w d hg
      · exact Nat.le_refl _
    granted_campaign := fun t w d hg => by
      rcases hg with hg | ⟨rfl, rfl, rfl⟩
      · exact hI.granted_campaign t w d hg
      · show (a.campaign _ _).isSome
        rw [hc]
        rfl
    elected := fun t d hl => by
      obtain ⟨h1, q, hq, h2⟩ := hI.elected t d hl
      exact ⟨h1, q, hq, fun w hw => hx.granted (h2 w hw)⟩
    carried := fun u w d l' hg hl' t i htu hi hh ho => by
      rcases hg with hg | ⟨rfl, rfl, rfl⟩
      · exact hI.carried u w d l' hg hl' t i htu hi hh ho
      · obtain rfl : l' = l := Option.some.inj (hl'.symm.trans hc)
        exact hI.vote_carries hfree hc hup hi hh ho }

/-- `elect` adds to the history: the term had no leader. -/
theorem Inv.extends_elect (hI : a.Inv key Quorum) {c : N} {l : List E}
    (hfree : a.leader (a.term c) = none) (hc : a.campaign (a.term c) c = some l) :
    Extends a (a.elect c) :=
  have hne : ∀ t, a.Led t → t ≠ a.term c := by
    rintro t ht rfl
    have h0 := (hI.campaign_bound _ c l hc).1
    rcases ht with ht | ht
    · omega
    · rw [hfree] at ht
      cases ht
  { Extends.refl a with
    leader := fun {t d} hl => by
      have := hne t (.inr (by rw [hl]; rfl))
      simpa [elect, Function.update_of_ne this] using hl
    canon := fun {t} ht => by simp [elect, Function.update_of_ne (hne t ht)]
    base := fun {t} ht => by simp [elect, Function.update_of_ne (hne t ht)] }

/-- Electing a candidate for whom a quorum has voted keeps the invariant, if the term had no leader
before. -/
theorem Inv.elect (hI : a.Inv key Quorum) {c : N} (hfree : a.leader (a.term c) = none)
    (hc : a.campaign (a.term c) c = some (a.log c)) {q : Finset N} (hq : Quorum q)
    (hgr : ∀ v ∈ q, a.granted (a.term c) v c) : (a.elect c).Inv key Quorum :=
  have hx := hI.extends_elect hfree hc
  have hwf := hI.campaign_wf _ c _ hc
  have hne : ∀ t, t ≠ a.term c → (a.elect c).leader t = a.leader t ∧
      (a.elect c).canon t = a.canon t ∧ (a.elect c).base t = a.base t := by
    intro t ht
    simp [Ledger.elect, Function.update_of_ne ht]
  have hself : (a.elect c).leader (a.term c) = some c ∧
      (a.elect c).canon (a.term c) = a.log c ∧ (a.elect c).base (a.term c) = (a.log c).length := by
    simp [Ledger.elect]
  have hbase : (a.elect c).baseLog (a.term c) = a.log c := by
    simp [baseLog, hself.2.1, hself.2.2]
  have hbase' : ∀ t, t ≠ a.term c → (a.elect c).baseLog t = a.baseLog t := by
    intro t ht
    simp [baseLog, hne t ht]
  have hled : ∀ t, t ≠ a.term c → (a.elect c).Led t → a.Led t := by
    intro t ht h
    rwa [Led, (hne t ht).1] at h
  { log_wf := fun v => hx.wfLog (hI.log_wf v)
    canon_wf := fun t ht => by
      by_cases h : t = a.term c
      · rw [h, hself.2.1]
        exact hx.wfLog hwf.1
      · rw [(hne t h).2.1]
        exact hx.wfLog (hI.canon_wf t (hled t h ht))
    log_bound := hI.log_bound
    canon_bound := fun t ht e he => by
      by_cases h : t = a.term c
      · rw [h, hself.2.1] at he
        exact h ▸ Nat.le_of_lt (hwf.2 e he)
      · rw [(hne t h).2.1] at he
        exact hI.canon_bound t (hled t h ht) e he
    base_bound := fun t ht e he => by
      by_cases h : t = a.term c
      · rw [h, hbase] at he
        exact h ▸ hwf.2 e he
      · rw [hbase' t h] at he
        rw [(hne t h).1] at ht
        exact hI.base_bound t ht e he
    base_le := fun t ht => by
      by_cases h : t = a.term c
      · rw [h, hself.2.1, hself.2.2]
      · rw [(hne t h).1] at ht
        rw [(hne t h).2.1, (hne t h).2.2]
        exact hI.base_le t ht
    campaign_wf := fun t d l hl =>
      ⟨hx.wfLog (hI.campaign_wf t d l hl).1, (hI.campaign_wf t d l hl).2⟩
    campaign_bound := hI.campaign_bound
    leader_bound := fun t d hl => by
      by_cases h : t = a.term c
      · subst h
        obtain rfl : c = d := Option.some.inj (hself.1.symm.trans hl)
        exact ⟨(hI.campaign_bound _ _ _ hc).1, Nat.le_refl _⟩
      · rw [(hne t h).1] at hl
        exact hI.leader_bound t d hl
    granted_bound := hI.granted_bound
    granted_campaign := hI.granted_campaign
    held_bound := fun t v hh => by
      obtain ⟨h1, h2, h3⟩ := hI.held_bound t v hh
      have h : t ≠ a.term c := by
        rintro rfl
        rw [hfree] at h1
        cases h1
      rw [(hne t h).1, (hne t h).2.1]
      exact ⟨h1, h2, h3⟩
    elected := fun t d hl => by
      by_cases h : t = a.term c
      · subst h
        obtain rfl : c = d := Option.some.inj (hself.1.symm.trans hl)
        exact ⟨by rw [hbase]; exact hc, q, hq, hgr⟩
      · rw [(hne t h).1] at hl
        rw [hbase' t h]
        exact hI.elected t d hl
    survives := fun _ _ _ hi hh ho => hI.survives_extends hx hi hh ho
    carried := fun _ _ _ _ hg hl _ _ htu hi hh ho => hI.carried_extends hx hg hl htu hi hh ho }

/-! ## What a move leaves to the other replicas -/

/-- Nothing has happened to the replica `w`, or to the log of a term that it leads. -/
structure Untouched (a a' : Ledger N E) (w : N) : Prop where
  term : a'.term w = a.term w
  log : a'.log w = a.log w
  leader : ∀ t, a'.leader t = some w ↔ a.leader t = some w
  canon : ∀ t, a.leader t = some w → a'.canon t = a.canon t

/-- Where nothing happens, no node is touched. -/
theorem untouched_refl (a : Ledger N E) (w : N) : Untouched a a w :=
  ⟨rfl, rfl, fun _ => Iff.rfl, fun _ _ => rfl⟩

/-- A vote touches the log of no node. -/
theorem untouched_grant (v c w : N) : Untouched a (a.grant v c) w :=
  ⟨rfl, rfl, fun _ => Iff.rfl, fun _ _ => rfl⟩

/-- An election touches only the node that is elected. -/
theorem untouched_elect {c w : N} (hfree : a.leader (a.term c) = none) (h : w ≠ c) :
    Untouched a (a.elect c) w := by
  refine ⟨rfl, rfl, fun t => ?_, fun t ht => ?_⟩
  · rcases eq_or_ne t (a.term c) with rfl | hne
    · simp [elect, hfree, h.symm]
    · simp [elect, Function.update_of_ne hne]
  · rcases eq_or_ne t (a.term c) with rfl | hne
    · rw [hfree] at ht
      cases ht
    · simp [elect, Function.update_of_ne hne]

end

/-! ## Moves that change one replica -/

section
variable [DecidableEq N]

/-- The replica `v` takes over the larger term `t`. -/
def raise (a : Ledger N E) (v : N) (t : Nat) : Ledger N E :=
  { a with term := Function.update a.term v t }

/-- The replica `v` stands for election in the next term. -/
def stand (a : Ledger N E) (v : N) : Ledger N E :=
  { a with
    term := Function.update a.term v (a.term v + 1)
    campaign t c := if t = a.term v + 1 ∧ c = v then some (a.log v) else a.campaign t c }

/-- The leader `c` of its term puts `es` at the end of its log. -/
def append (a : Ledger N E) (c : N) (es : List E) : Ledger N E :=
  { a with
    log := Function.update a.log c (a.log c ++ es)
    canon := Function.update a.canon (a.term c) (a.log c ++ es) }

/-- The replica `v` takes over the slice `es` of the log of its term's leader behind index `p`, and
acknowledges it. -/
def accept [DecidableEq E] (a : Ledger N E) (v : N) (p : Nat) (es : List E) : Ledger N E :=
  { a with
    log := Function.update a.log v (splice (p + 1) es (a.log v))
    held t w :=
      if t = a.term v ∧ w = v then max (a.held t w) (p + es.length) else a.held t w }

variable {key : E → Nat} {Quorum : Finset N → Prop} {a : Ledger N E}

/-- `raise` adds to the history. -/
theorem extends_raise {v : N} {t : Nat} (ht : a.term v ≤ t) : Extends a (a.raise v t) :=
  { Extends.refl a with
    term := fun w => by
      rcases eq_or_ne w v with rfl | hne
      · simpa [raise] using ht
      · simp [raise, Function.update_of_ne hne] }

/-- A node that goes on to a larger term keeps the invariant. -/
theorem Inv.raise (hI : a.Inv key Quorum) {v : N} {t : Nat} (ht : a.term v ≤ t) :
    (a.raise v t).Inv key Quorum :=
  have hx := extends_raise (a := a) ht
  { hI with
    log_bound := fun w e he => Nat.le_trans (hI.log_bound w e he) (hx.term w)
    campaign_bound := fun s c l hc =>
      ⟨(hI.campaign_bound s c l hc).1, Nat.le_trans (hI.campaign_bound s c l hc).2 (hx.term c)⟩
    leader_bound := fun s c hc =>
      ⟨(hI.leader_bound s c hc).1, Nat.le_trans (hI.leader_bound s c hc).2 (hx.term c)⟩
    granted_bound := fun s w c hg => Nat.le_trans (hI.granted_bound s w c hg) (hx.term w)
    held_bound := fun s w hh =>
      have h := hI.held_bound s w hh
      ⟨h.1, h.2.1, Nat.le_trans h.2.2 (hx.term w)⟩
    survives := fun _ _ _ hi hh ho => hI.survives_extends hx hi hh ho }

/-- `stand` adds to the history: nobody has stood in a term before reaching it. -/
theorem Inv.extends_stand (hI : a.Inv key Quorum) (v : N) : Extends a (a.stand v) :=
  { Extends.refl a with
    term := fun w => by
      rcases eq_or_ne w v with rfl | hne
      · simp [stand]
      · simp [stand, Function.update_of_ne hne]
    campaign := fun {t c l} hc => by
      have hb := (hI.campaign_bound t c l hc).2
      have hne : ¬ (t = a.term v + 1 ∧ c = v) := by
        rintro ⟨rfl, rfl⟩
        omega
      simpa only [stand, if_neg hne] using hc }

/-- A node that stands in the next term keeps the invariant. -/
theorem Inv.stand (hI : a.Inv key Quorum) (v : N) : (a.stand v).Inv key Quorum :=
  have hx := hI.extends_stand v
  have hcamp : ∀ t c l, (a.stand v).campaign t c = some l →
      a.campaign t c = some l ∨ t = a.term v + 1 ∧ c = v ∧ l = a.log v := by
    intro t c l hc
    simp only [Ledger.stand] at hc
    split at hc
    · next h => exact .inr ⟨h.1, h.2, (Option.some.inj hc).symm⟩
    · exact .inl hc
  { hI with
    log_bound := fun w e he => Nat.le_trans (hI.log_bound w e he) (hx.term w)
    campaign_wf := fun t c l hc => by
      rcases hcamp t c l hc with hc | ⟨rfl, rfl, rfl⟩
      · exact hI.campaign_wf t c l hc
      · exact ⟨hI.log_wf c, fun e he => Nat.lt_succ_of_le (hI.log_bound c e he)⟩
    campaign_bound := fun t c l hc => by
      rcases hcamp t c l hc with hc | ⟨rfl, rfl, rfl⟩
      · exact ⟨(hI.campaign_bound t c l hc).1,
          Nat.le_trans (hI.campaign_bound t c l hc).2 (hx.term c)⟩
      · exact ⟨Nat.succ_pos _, by simp [Ledger.stand]⟩
    leader_bound := fun s c hc =>
      ⟨(hI.leader_bound s c hc).1, Nat.le_trans (hI.leader_bound s c hc).2 (hx.term c)⟩
    granted_bound := fun s w c hg => Nat.le_trans (hI.granted_bound s w c hg) (hx.term w)
    granted_campaign := fun s w c hg => by
      obtain ⟨l, hl⟩ := Option.isSome_iff_exists.1 (hI.granted_campaign s w c hg)
      rw [hx.campaign hl]
      rfl
    held_bound := fun s w hh =>
      have h := hI.held_bound s w hh
      ⟨h.1, h.2.1, Nat.le_trans h.2.2 (hx.term w)⟩
    elected := fun t c hc => ⟨hx.campaign (hI.elected t c hc).1, (hI.elected t c hc).2⟩
    survives := fun _ _ _ hi hh ho => hI.survives_extends hx hi hh ho
    carried := fun u w c l hg hc t i htu hi hh ho => by
      -- whoever has a vote in a term has already stood in it
      obtain ⟨l', hl'⟩ := Option.isSome_iff_exists.1 (hI.granted_campaign u w c hg)
      obtain rfl : l' = l := Option.some.inj ((hx.campaign hl').symm.trans hc)
      exact hI.carried_extends hx hg hl' htu hi hh ho }

/-- `append` adds to the history: the leader's log grows at its end. -/
theorem extends_append {c : N} (es : List E) (hcan : a.canon (a.term c) = a.log c) :
    Extends a (a.append c es) :=
  { Extends.refl a with
    canon := fun {t} _ => by
      rcases eq_or_ne t (a.term c) with rfl | hne
      · simp [append, hcan]
      · simp [append, Function.update_of_ne hne] }

/-- A leader that appends entries of its own term to its log keeps the invariant. -/
theorem Inv.append (hI : a.Inv key Quorum) {c : N} {es : List E}
    (hl : a.leader (a.term c) = some c) (hcan : a.canon (a.term c) = a.log c)
    (hes : ∀ e ∈ es, key e = a.term c) : (a.append c es).Inv key Quorum :=
  have hx := extends_append es hcan
  have hled : a.Led (a.term c) := .inr (by rw [hl]; rfl)
  have hcself : (a.append c es).canon (a.term c) = a.log c ++ es := by simp [Ledger.append]
  have hlself : (a.append c es).log c = a.log c ++ es := by simp [Ledger.append]
  have hcne : ∀ t, t ≠ a.term c → (a.append c es).canon t = a.canon t := by
    intro t ht
    simp [Ledger.append, Function.update_of_ne ht]
  have hlne : ∀ v, v ≠ c → (a.append c es).log v = a.log v := by
    intro v hv
    simp [Ledger.append, Function.update_of_ne hv]
  have hbase : ∀ t, (a.leader t).isSome → (a.append c es).baseLog t = a.baseLog t :=
    fun t ht => hx.baseLog (.inr ht) (hI.base_le t ht)
  have hwf : (a.append c es).WfLog key (a.log c ++ es) :=
    hx.wfLog_append (hI.log_wf c) (hx.led hled) hcself hes
  { log_wf := fun v => by
      rcases eq_or_ne v c with rfl | hne
      · rw [hlself]
        exact hwf
      · rw [hlne v hne]
        exact hx.wfLog (hI.log_wf v)
    canon_wf := fun t ht => by
      by_cases h : t = a.term c
      · rw [h, hcself]
        exact hwf
      · rw [hcne t h]
        exact hx.wfLog (hI.canon_wf t ht)
    log_bound := fun v e he => by
      rcases eq_or_ne v c with rfl | hne
      · rw [hlself] at he
        rcases List.mem_append.1 he with he | he
        · exact hI.log_bound v e he
        · exact Nat.le_of_eq (hes e he)
      · rw [hlne v hne] at he
        exact hI.log_bound v e he
    canon_bound := fun t ht e he => by
      by_cases h : t = a.term c
      · rw [h, hcself] at he
        rcases List.mem_append.1 he with he | he
        · exact h ▸ hI.log_bound c e he
        · exact h ▸ Nat.le_of_eq (hes e he)
      · rw [hcne t h] at he
        exact hI.canon_bound t ht e he
    base_bound := fun t ht e he => by
      rw [hbase t ht] at he
      exact hI.base_bound t ht e he
    base_le := fun t ht => Nat.le_trans (hI.base_le t ht) (hx.canon (.inr ht)).length_le
    campaign_wf := fun t d l hc =>
      ⟨hx.wfLog (hI.campaign_wf t d l hc).1, (hI.campaign_wf t d l hc).2⟩
    campaign_bound := hI.campaign_bound
    leader_bound := hI.leader_bound
    granted_bound := hI.granted_bound
    granted_campaign := hI.granted_campaign
    held_bound := fun t v hh => by
      obtain ⟨h1, h2, h3⟩ := hI.held_bound t v hh
      exact ⟨h1, Nat.lt_of_lt_of_le h2 (hx.canon (.inr h1)).length_le, h3⟩
    elected := fun t d hd => by
      rw [hbase t (by rw [show a.leader t = some d from hd]; rfl)]
      exact hI.elected t d hd
    survives := fun v t i hi hh ho => by
      refine (hI.survives_extends hx hi hh ho).imp (fun h => AgreeTo.trans ?_ h) id
      rcases eq_or_ne v c with rfl | hne
      · rw [hlself]
        exact (agreeTo_of_isPrefix (List.prefix_append _ _) h.lt_left).symm
      · rw [hlne v hne]
        exact AgreeTo.refl h.lt_left
    carried := fun _ _ _ _ hg hc _ _ htu hi hh ho => hI.carried_extends hx hg hc htu hi hh ho }

section
variable [DecidableEq E]

/-- `accept` adds to the history. -/
theorem extends_accept (v : N) (p : Nat) (es : List E) : Extends a (a.accept v p es) :=
  { Extends.refl a with
    held := fun t w => by
      simp only [accept]
      split
      · exact Nat.le_max_left _ _
      · exact Nat.le_refl _ }

/-- What `accept` does to the acknowledgements. -/
theorem held_accept {v w : N} {p t i : Nat} {es : List E}
    (h : i ≤ (a.accept v p es).held t w) :
    i ≤ a.held t w ∨ t = a.term v ∧ w = v ∧ i ≤ p + es.length := by
  simp only [accept] at h
  split at h
  · next heq =>
    rcases Nat.le_total (a.held t w) (p + es.length) with h' | h'
    · exact .inr ⟨heq.1, heq.2, by rwa [Nat.max_eq_right h'] at h⟩
    · exact .inl (by rwa [Nat.max_eq_left h'] at h)
  · exact .inl h

/-- A node that takes over a slice of its leader's log behind an index up to which its own log
agrees with that one keeps the invariant. -/
theorem Inv.accept (hI : a.Inv key Quorum) {v : N} {p : Nat} {es : List E}
    (hlead : (a.leader (a.term v)).isSome) (hsl : SliceOf p es (a.canon (a.term v)))
    (hag : AgreeTo p (a.log v) (a.canon (a.term v))) : (a.accept v p es).Inv key Quorum :=
  have hx := extends_accept (a := a) v p es
  have hlself : (a.accept v p es).log v = splice (p + 1) es (a.log v) := by simp [Ledger.accept]
  have hlne : ∀ w, w ≠ v → (a.accept v p es).log w = a.log w := by
    intro w hw
    simp [Ledger.accept, Function.update_of_ne hw]
  have hend := agreeTo_splice_end hag hsl
  { hI with
    log_wf := fun w => by
      rcases eq_or_ne w v with rfl | hne
      · rw [hlself]
        exact (hI.log_wf w).splice (hI.canon_wf _ (.inr hlead)) hag hsl
      · rw [hlne w hne]
        exact hI.log_wf w
    log_bound := fun w e he => by
      rcases eq_or_ne w v with rfl | hne
      · rw [hlself] at he
        rcases mem_splice he with he | he
        · exact hI.log_bound w e he
        · exact hI.canon_bound _ (.inr hlead) e (hsl.mem he)
      · rw [hlne w hne] at he
        exact hI.log_bound w e he
    held_bound := fun t w hh => by
      rcases held_accept hh with h | ⟨rfl, rfl, -⟩
      · obtain ⟨h1, h2, h3⟩ := hI.held_bound t w h
        refine ⟨h1, ?_, h3⟩
        rcases held_accept (Nat.le_refl ((a.accept v p es).held t w)) with h | ⟨rfl, -, h⟩
        · exact Nat.lt_of_le_of_lt h h2
        · exact Nat.lt_of_le_of_lt h hsl.bound
      · refine ⟨hlead, ?_, Nat.le_refl _⟩
        rcases held_accept (Nat.le_refl ((a.accept w p es).held (a.term w) w)) with h | ⟨-, -, h⟩
        · exact Nat.lt_of_le_of_lt h (hI.held_bound _ w (Nat.lt_of_lt_of_le hh h)).2.1
        · exact Nat.lt_of_le_of_lt h hsl.bound
    survives := fun w t i hi hh ho => by
      have hnew : i ≤ p + es.length → AgreeTo i (splice (p + 1) es (a.log v))
          (a.canon (a.term v)) := fun h => hend.mono h
      rcases eq_or_ne w v with rfl | hne
      swap
      · rw [hlne w hne]
        rcases held_accept hh with h | ⟨-, h, -⟩
        · exact hI.survives w t i hi h ho
        · exact absurd h hne
      rw [hlself]
      rcases held_accept hh with h | ⟨rfl, -, h⟩
      swap
      · exact .inl (hnew h)
      rcases hI.survives w t i hi h ho with h' | h'
      swap
      · exact .inr h'
      -- the old log still had the acknowledged entries of `t`; so has the current leader, or it
      -- is one of those that lack them
      rcases Nat.eq_or_lt_of_le (hI.held_bound t w (Nat.lt_of_lt_of_le hi h)).2.2 with rfl | hlt
      · exact .inl (h'.splice hag hsl)
      · by_cases hl : a.Lacks t i (a.term w)
        · exact .inr ⟨_, hlt, Nat.le_refl _, hl⟩
        · obtain ⟨-, hct⟩ := agree_canon_of_not_lacks hlead hl
          exact .inl (((h'.trans hct.symm).splice hag hsl).trans hct)
    carried := fun u w c l hg hc t i htu hi hh ho => by
      rcases held_accept hh with h | ⟨rfl, rfl, -⟩
      · exact hI.carried u w c l hg hc t i htu hi h ho
      · exact absurd (hI.granted_bound u w c hg) (by omega) }

end

/-- A new term touches only the node that goes on to it. -/
theorem untouched_raise {v w : N} (t : Nat) (h : w ≠ v) : Untouched a (a.raise v t) w :=
  ⟨Function.update_of_ne h .., rfl, fun _ => Iff.rfl, fun _ _ => rfl⟩

/-- A candidacy touches only the candidate. -/
theorem untouched_stand {v w : N} (h : w ≠ v) : Untouched a (a.stand v) w :=
  ⟨Function.update_of_ne h .., rfl, fun _ => Iff.rfl, fun _ _ => rfl⟩

/-- A slice touches only the node that takes it over. -/
theorem untouched_accept [DecidableEq E] {v w : N} (p : Nat) (es : List E) (h : w ≠ v) :
    Untouched a (a.accept v p es) w :=
  ⟨rfl, Function.update_of_ne h .., fun _ => Iff.rfl, fun _ _ => rfl⟩

/-- New entries touch only their leader. -/
theorem untouched_append {c w : N} (es : List E) (hl : a.leader (a.term c) = some c) (h : w ≠ c) :
    Untouched a (a.append c es) w := by
  refine ⟨rfl, Function.update_of_ne h .., fun _ => Iff.rfl, fun t ht => ?_⟩
  have hne : t ≠ a.term c := by
    rintro rfl
    exact h (Option.some.inj (ht.symm.trans hl))
  exact Function.update_of_ne hne ..

end

end Ledger

end ToFTDS
