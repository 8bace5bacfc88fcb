import PulseForge.Analysis.DeskTables
import PulseForge.Analysis.ShareConservation

/-!
# What the reports of a session say of its orders

An account balances when the shares its reports accept are those they execute and cancel, those
that rest and those that are still being matched. Every rule of the event protocol keeps the
account of every session balanced: one event tells a session one thing at most.
-/

set_option autoImplicit false

namespace PulseForge

/-! ## Reading reports -/

namespace Report

/-- Shares accepted under `ref`. -/
def acceptedQty (ref : ℕ) : Report → ℕ
  | .accepted r q => if r = ref then q else 0
  | .executed .. | .canceled .. | .rejected .. => 0

/-- Shares executed under `ref`. -/
def executedQty (ref : ℕ) : Report → ℕ
  | .executed r q _ => if r = ref then q else 0
  | .accepted .. | .canceled .. | .rejected .. => 0

/-- Shares cancelled under `ref`. -/
def canceledQty (ref : ℕ) : Report → ℕ
  | .canceled r q => if r = ref then q else 0
  | .accepted .. | .executed .. | .rejected .. => 0

/-- The reference that is accepted. -/
def acceptedRef? : Report → Option ℕ
  | .accepted r _ => some r
  | .executed .. | .canceled .. | .rejected .. => none

/-- The reference that loses shares. -/
def closedRef? : Report → Option ℕ
  | .executed r _ _ => some r
  | .canceled r _ => some r
  | .accepted .. | .rejected .. => none

/-- The engine's listener did not reject. -/
def isAnswer : Report → Bool
  | .accepted .. | .executed .. | .canceled .. => true
  | .rejected .. => false

end Report

/-- A quantity summed over reports. -/
def reportSum (f : Report → ℕ) (rs : List Report) : ℕ := (rs.map f).sum

/-- The total of two lists of reports. -/
@[simp] theorem reportSum_append (f : Report → ℕ) (rs rs' : List Report) :
    reportSum f (rs ++ rs') = reportSum f rs + reportSum f rs' := by
  simp [reportSum]

@[simp] theorem reportSum_singleton (f : Report → ℕ) (r : Report) : reportSum f [r] = f r := by
  simp [reportSum]

/-- The references that were accepted, in order. -/
def acceptedRefs (rs : List Report) : List ℕ := rs.filterMap Report.acceptedRef?

/-- The references accepted in two lists of reports. -/
@[simp] theorem acceptedRefs_append (rs rs' : List Report) :
    acceptedRefs (rs ++ rs') = acceptedRefs rs ++ acceptedRefs rs' :=
  List.filterMap_append

/-- Nothing is accepted under a reference that was not accepted. -/
theorem reportSum_acceptedQty_of_notMem {rs : List Report} {ref : ℕ} (h : ref ∉ acceptedRefs rs) :
    reportSum (Report.acceptedQty ref) rs = 0 := by
  rw [reportSum, List.sum_eq_zero_iff]
  intro n hn
  obtain ⟨r, hr, rfl⟩ := List.mem_map.mp hn
  cases r with
  | accepted r q =>
    refine if_neg ?_
    rintro rfl
    exact h (List.mem_filterMap.mpr ⟨_, hr, rfl⟩)
  | executed | canceled | rejected => rfl

/-! ## Open shares -/

namespace Account

/-- What rests of the order that the table has under `ref`. -/
def restingQty (r : RefEngine) (a : Account) (ref : ℕ) : ℕ :=
  match a.table ref with
  | none => 0
  | some h => r.restingQty h.locate h.id

end Account

/-- What is still being matched of the order of the session `k` under `ref`. -/
def Flow.takingQty (x : Flow) (k ref : ℕ) : ℕ :=
  match x.taker with
  | some (_, req, remaining) => if req.owner = k ∧ req.userRef = ref then remaining else 0
  | none => 0

/-- What is open of the order of the session `k` under `ref`. -/
def Flow.sharesOf (x : Flow) (k : ℕ) (a : Account) (ref : ℕ) : ℕ :=
  a.restingQty x.engine ref + x.takingQty k ref

namespace Desk

variable {r : RefEngine} {k : ℕ} {a : Account}

/-- No shares rest under a handle that no order has. -/
theorem restingQty_of_not_rests {h : OrderHandle} (hno : ∀ k ref, ¬ Rests r k ref h) :
    r.restingQty h.locate h.id = 0 := by
  unfold RefEngine.restingQty
  cases hm : r.market? h.locate with
  | none => rfl
  | some m =>
    have hfind : m.find h.id = none := by
      rw [Market.find_eq_none_iff]
      intro o ho hid
      exact hno o.owner o.userRef ⟨m, hm, o, ho, rfl, rfl, hid⟩
    simp [hfind]

/-- A table that is exact but for what is pending, which does not rest. -/
structure Exact (r : RefEngine) (k : ℕ) (a : Account) (pending : ℕ → OrderHandle → Prop) :
    Prop where
  table : ∀ ref h, a.table ref = some h ↔ Rests r k ref h ∨ pending ref h
  fresh : ∀ ref h, pending ref h → ∀ k' ref', ¬ Rests r k' ref' h

/-- **An order loses shares**, and the account whose order it is loses them. -/
theorem Exact.restingQty_take {pending : ℕ → OrderHandle → Prop} (h : Exact r k a pending)
    (hr : r.WF) {l q : ℕ} {m : Market} {o : BookOrder} (hm : r.market? l = some m)
    (ho : o ∈ m.orders) (hle : q ≤ o.qty) (hr' : (r.setMarket l (m.take o q)).WF) {a' : Account}
    (ha' : ∀ ref, a'.table ref =
      if o.owner = k ∧ q = o.qty ∧ o.userRef = ref then none else a.table ref) (ref : ℕ) :
    a.restingQty r ref = a'.restingQty (r.setMarket l (m.take o q)) ref +
      if o.owner = k ∧ o.userRef = ref then q else 0 := by
  have hrests : Rests r o.owner o.userRef ⟨l, o.id⟩ := ⟨m, hm, o, ho, rfl, rfl, rfl⟩
  unfold Account.restingQty
  rw [ha']
  cases ht : a.table ref with
  | none =>
    have hnot : ¬ (o.owner = k ∧ o.userRef = ref) := by
      rintro ⟨rfl, rfl⟩
      have hin := (h.table o.userRef ⟨l, o.id⟩).mpr (.inl hrests)
      exact absurd (ht.symm.trans hin) (by simp)
    rw [if_neg hnot, ite_self]
  | some hd =>
    have htake := RefEngine.restingQty_take hr hm hr' ho hle hd.locate hd.id
    -- the entry is the order's own one exactly when the session and the reference are the order's
    have hiff : (hd.locate = l ∧ hd.id = o.id) ↔ (o.owner = k ∧ o.userRef = ref) := by
      constructor
      · rintro ⟨hl, hid⟩
        have hhd : hd = ⟨l, o.id⟩ := by
          rw [← hl, ← hid]
        rw [hhd] at ht
        rcases (h.table ref ⟨l, o.id⟩).mp ht with hmine | hp
        · exact Rests.unique hr hrests hmine
        · exact absurd hrests (h.fresh ref _ hp _ _)
      · rintro ⟨rfl, rfl⟩
        have hin := (h.table o.userRef ⟨l, o.id⟩).mpr (.inl hrests)
        obtain rfl := Option.some.inj (ht.symm.trans hin)
        exact ⟨rfl, rfl⟩
    by_cases hown : o.owner = k ∧ o.userRef = ref
    · obtain ⟨hl, hid⟩ := hiff.mpr hown
      rw [if_pos (hiff.mpr hown)] at htake
      rw [if_pos hown]
      by_cases hq : q = o.qty
      · have hqty := RefEngine.restingQty_of_mem hr hm ho
        rw [if_pos ⟨hown.1, hq, hown.2⟩]
        simp only [hl, hid, hqty]
        omega
      · rw [if_neg fun hc => hq hc.2.1]
        exact htake
    · rw [if_neg fun hc => hown (hiff.mp hc)] at htake
      rw [if_neg fun hc => hown ⟨hc.1, hc.2.2⟩, if_neg hown]
      exact htake

/-- **An order comes to rest**, and the account whose order it is has it resting. -/
theorem Exact.restingQty_rest {pending : ℕ → OrderHandle → Prop} (h : Exact r k a pending)
    (hr : r.WF) {l : ℕ} {m : Market} {o : BookOrder} (hm : r.market? l = some m)
    (hfresh : m.find o.id = none) (hr' : (r.setMarket l (m.rest o)).WF)
    (hpending : ∀ ref, pending ref ⟨l, o.id⟩ ↔ o.owner = k ∧ o.userRef = ref) (ref : ℕ) :
    a.restingQty (r.setMarket l (m.rest o)) ref = a.restingQty r ref +
      if o.owner = k ∧ o.userRef = ref then o.qty else 0 := by
  unfold Account.restingQty
  cases ht : a.table ref with
  | none =>
    have hnot : ¬ (o.owner = k ∧ o.userRef = ref) := by
      intro hown
      have hin := (h.table ref ⟨l, o.id⟩).mpr (.inr ((hpending ref).mpr hown))
      exact absurd (ht.symm.trans hin) (by simp)
    rw [if_neg hnot]
  | some hd =>
    have hrest := RefEngine.restingQty_rest hr hm hr' hfresh hd.locate hd.id
    have hiff : (hd.locate = l ∧ hd.id = o.id) ↔ (o.owner = k ∧ o.userRef = ref) := by
      constructor
      · rintro ⟨hl, hid⟩
        have hhd : hd = ⟨l, o.id⟩ := by
          rw [← hl, ← hid]
        rw [hhd] at ht
        rcases (h.table ref ⟨l, o.id⟩).mp ht with ⟨m', hm', o', ho', -, -, hid'⟩ | hp
        · obtain rfl := Option.some.inj (hm.symm.trans hm')
          exact absurd hid' (Market.find_eq_none_iff.mp hfresh o' ho')
        · exact (hpending ref).mp hp
      · intro hown
        have hin := (h.table ref ⟨l, o.id⟩).mpr (.inr ((hpending ref).mpr hown))
        obtain rfl := Option.some.inj (ht.symm.trans hin)
        exact ⟨rfl, rfl⟩
    simp only [hiff] at hrest
    exact hrest

/-! ## Balance -/

/-- **The account of the session `k` balances.** -/
structure Balanced (x : Flow) (k : ℕ) (a : Account) : Prop where
  balance : ∀ ref, reportSum (Report.acceptedQty ref) a.reports =
    reportSum (Report.executedQty ref) a.reports + reportSum (Report.canceledQty ref) a.reports +
      x.sharesOf k a ref
  nodup : (acceptedRefs a.reports).Nodup
  small : ∀ ref, reportSum (Report.acceptedQty ref) a.reports < 2 ^ 32
  refs : ∀ ref ∈ acceptedRefs a.reports, ref ≤ a.lastUserRef
  first : ∀ pre r post, a.reports = pre ++ r :: post → ∀ ref, r.closedRef? = some ref →
    ref ∈ acceptedRefs pre
  last : a.lastUserRef < 2 ^ 32

variable {x y : Flow}

/-- **Open shares were accepted**, and they and their reference fit the messages. -/
theorem Balanced.accepted (h : Balanced x k a) (ref : ℕ) (hopen : 0 < x.sharesOf k a ref) :
    ref ∈ acceptedRefs a.reports ∧ ref < 2 ^ 32 ∧ x.sharesOf k a ref < 2 ^ 32 := by
  have hbal := h.balance ref
  have hsmall := h.small ref
  have hmem : ref ∈ acceptedRefs a.reports := by
    by_contra hno
    have hzero := reportSum_acceptedQty_of_notMem hno
    omega
  have hle := h.refs ref hmem
  have hlast := h.last
  exact ⟨hmem, by omega, by omega⟩

/-- What closes shares comes behind what accepted them, also with one more report. -/
theorem first_append {rs : List Report} {r : Report}
    (h : ∀ pre r post, rs = pre ++ r :: post → ∀ ref, r.closedRef? = some ref →
      ref ∈ acceptedRefs pre)
    (hr : ∀ ref, r.closedRef? = some ref → ref ∈ acceptedRefs rs) :
    ∀ pre r' post, rs ++ [r] = pre ++ r' :: post → ∀ ref, r'.closedRef? = some ref →
      ref ∈ acceptedRefs pre := by
  intro pre r' post hsplit
  rcases List.eq_nil_or_concat post with rfl | ⟨post', last, rfl⟩
  · obtain ⟨rfl, hlast⟩ := List.append_inj' hsplit rfl
    obtain rfl := List.singleton_inj.mp hlast
    exact hr
  · rw [List.concat_eq_append, ← List.cons_append, ← List.append_assoc] at hsplit
    exact h pre r' post' (List.append_inj' hsplit rfl).1

/-- **Nothing is said**, or that something was rejected. -/
theorem Balanced.silent (h : Balanced x k a) {a' : Account} (rs : List Report)
    (hreports : a'.reports = a.reports ++ rs) (hrs : ∀ r ∈ rs, r.isAnswer = false)
    (hlast : a.lastUserRef ≤ a'.lastUserRef) (hsmall : a'.lastUserRef < 2 ^ 32)
    (hopen : ∀ ref, y.sharesOf k a' ref = x.sharesOf k a ref) : Balanced y k a' := by
  induction rs generalizing a with
  | nil =>
    rw [List.append_nil] at hreports
    obtain ⟨hb, hn, hs, hr, hf, -⟩ := h
    refine ⟨fun ref => ?_, by rw [hreports]; exact hn, by rw [hreports]; exact hs,
      fun ref hmem => ?_, by rw [hreports]; exact hf, hsmall⟩
    · rw [hreports, hopen]
      exact hb ref
    · rw [hreports] at hmem
      exact (hr ref hmem).trans hlast
  | cons r rs ih =>
    have hr := hrs r List.mem_cons_self
    cases r with
    | accepted | executed | canceled => cases hr
    | rejected ref₀ =>
      refine ih (a := { a with reports := a.reports ++ [.rejected ref₀] }) ?_ ?_ ?_ hlast hopen
      · have hnone : acceptedRefs [.rejected ref₀] = [] := rfl
        obtain ⟨hb, hn, hs, hrf, hf, hl⟩ := h
        refine ⟨fun ref => ?_, ?_, fun ref => ?_, ?_, first_append hf fun ref hc => ?_, hl⟩
        · have := hb ref
          simp only [reportSum_append, reportSum_singleton, Report.acceptedQty, Report.executedQty,
            Report.canceledQty, Nat.add_zero]
          exact this
        · rw [acceptedRefs_append, hnone, List.append_nil]
          exact hn
        · simpa [Report.acceptedQty] using hs ref
        · rw [acceptedRefs_append, hnone, List.append_nil]
          exact hrf
        · cases hc
      · simpa using hreports
      · exact fun r hr => hrs r (List.mem_cons_of_mem _ hr)

/-- **An order is accepted** under a reference that was not. -/
theorem Balanced.opening (h : Balanced x k a) {a' : Account} (ref₀ q : ℕ)
    (hreports : a'.reports = a.reports ++ [.accepted ref₀ q]) (hnew : ref₀ ∉ acceptedRefs a.reports)
    (hle : ref₀ ≤ a.lastUserRef) (hq : q < 2 ^ 32) (hlast : a'.lastUserRef = a.lastUserRef)
    (hopen : ∀ ref, y.sharesOf k a' ref = x.sharesOf k a ref + if ref = ref₀ then q else 0) :
    Balanced y k a' := by
  have hsum : ∀ ref, reportSum (Report.acceptedQty ref) a'.reports =
      reportSum (Report.acceptedQty ref) a.reports + if ref = ref₀ then q else 0 := by
    intro ref
    simp only [hreports, reportSum_append, reportSum_singleton, Report.acceptedQty, eq_comm]
  have hrefs : acceptedRefs a'.reports = acceptedRefs a.reports ++ [ref₀] := by
    simp [hreports, acceptedRefs, Report.acceptedRef?]
  refine ⟨fun ref => ?_, ?_, fun ref => ?_, fun ref hmem => ?_, ?_, hlast ▸ h.last⟩
  · have hb := h.balance ref
    rw [hsum, hopen]
    simp only [hreports, reportSum_append, reportSum_singleton, Report.executedQty,
      Report.canceledQty, Nat.add_zero]
    omega
  · rw [hrefs, List.nodup_append]
    refine ⟨h.nodup, List.nodup_singleton _, ?_⟩
    rintro ref hmem _ hlast rfl
    rw [List.mem_singleton.mp hlast] at hmem
    exact hnew hmem
  · rw [hsum]
    split_ifs with hr
    · rw [hr, reportSum_acceptedQty_of_notMem hnew]
      omega
    · exact h.small ref
  · rw [hrefs, List.mem_append, List.mem_singleton] at hmem
    rw [hlast]
    rcases hmem with hmem | rfl
    · exact h.refs ref hmem
    · exact hle
  · rw [hreports]
    refine first_append h.first fun ref hc => ?_
    cases hc

/-- **Shares are executed or cancelled** that were open. -/
theorem Balanced.closing (h : Balanced x k a) {a' : Account} {r : Report} (ref₀ q : ℕ)
    (hreports : a'.reports = a.reports ++ [r]) (hr : r.closedRef? = some ref₀)
    (hqty : ∀ ref, r.executedQty ref + r.canceledQty ref = if ref = ref₀ then q else 0)
    (hpos : 0 < q) (hlast : a'.lastUserRef = a.lastUserRef)
    (hopen : ∀ ref, x.sharesOf k a ref = y.sharesOf k a' ref + if ref = ref₀ then q else 0) :
    Balanced y k a' := by
  have hnone : r.acceptedRef? = none := by
    cases r <;> first | rfl | cases hr
  have hsum : ∀ ref, reportSum (Report.acceptedQty ref) a'.reports =
      reportSum (Report.acceptedQty ref) a.reports := by
    intro ref
    have hzero : r.acceptedQty ref = 0 := by
      cases r <;> first | rfl | cases hr
    rw [hreports, reportSum_append, reportSum_singleton, hzero, Nat.add_zero]
  have hrefs : acceptedRefs a'.reports = acceptedRefs a.reports := by
    simp [hreports, acceptedRefs, hnone]
  have hmem : ref₀ ∈ acceptedRefs a.reports := by
    have hsplit := hopen ref₀
    rw [if_pos rfl] at hsplit
    exact (h.accepted ref₀ (by omega)).1
  refine ⟨fun ref => ?_, hrefs ▸ h.nodup, fun ref => by rw [hsum]; exact h.small ref, ?_, ?_,
    hlast ▸ h.last⟩
  · have hb := h.balance ref
    have hc := hqty ref
    rw [hopen] at hb
    rw [hsum, hreports]
    simp only [reportSum_append, reportSum_singleton]
    omega
  · rw [hrefs, hlast]
    exact h.refs
  · rw [hreports]
    refine first_append h.first fun ref hc => ?_
    obtain rfl := Option.some.inj (hr.symm.trans hc)
    exact hmem

/-! ## Every rule keeps an account balanced -/

/-- An order that the account can accept. -/
structure Fits (a : Account) (req : OrderRequest) : Prop where
  new : req.userRef ∉ acceptedRefs a.reports
  le : req.userRef ≤ a.lastUserRef
  qty : req.qty < 2 ^ 32

/-- An event adds the reports it causes. -/
@[simp] theorem hear_reports (k : ℕ) (a : Account) (ev : Event) :
    (a.hear k ev).reports = a.reports ++ ev.reportsTo k := by
  unfold Account.hear
  split <;> rfl

/-- The open shares of a taker count for its owner and reference. -/
theorem takingQty_taking (r : RefEngine) (l : ℕ) (req : OrderRequest) (remaining k ref : ℕ) :
    (⟨r, Flow.taking l req remaining⟩ : Flow).takingQty k ref =
      if req.owner = k ∧ req.userRef = ref then remaining else 0 := by
  unfold Flow.takingQty Flow.taking
  by_cases h0 : remaining = 0
  · simp [h0]
  · simp [h0]

/-- **An event of one report**: shares that were open are executed or cancelled. -/
theorem Balanced.close (h : Balanced x k a) {ev : Event} (ref₀ q : ℕ) {rep : ℕ → ℕ → Report}
    (hkind : (∃ n, rep = fun ref q => .executed ref q n) ∨ rep = .canceled)
    (hrep : ev.reportsTo k = [rep (ref₀ % 2 ^ 32) (q % 2 ^ 32)]) (hpos : 0 < q)
    (hopen : ∀ ref, x.sharesOf k a ref =
      y.sharesOf k (a.hear k ev) ref + if ref = ref₀ then q else 0) :
    Balanced y k (a.hear k ev) := by
  have hsplit := hopen ref₀
  rw [if_pos rfl] at hsplit
  obtain ⟨-, href, hshares⟩ := h.accepted ref₀ (by omega)
  -- what the message says is not cut, for what is open was accepted by a message
  have hq : q < 2 ^ 32 := by omega
  rw [Nat.mod_eq_of_lt href, Nat.mod_eq_of_lt hq] at hrep
  have hreports : (a.hear k ev).reports = a.reports ++ [rep ref₀ q] := by
    rw [hear_reports, hrep]
  refine h.closing ref₀ q hreports ?_ ?_ hpos (Account.hear_lastUserRef k a ev) hopen
  · rcases hkind with ⟨n, rfl⟩ | rfl <;> rfl
  · intro ref
    rcases hkind with ⟨n, rfl⟩ | rfl
    · simp only [Report.executedQty, Report.canceledQty, Nat.add_zero, eq_comm]
    · simp only [Report.executedQty, Report.canceledQty, Nat.zero_add, eq_comm]

/-- **An event of no report** that leaves what is open alone. -/
theorem Balanced.quiet (h : Balanced x k a) {ev : Event} (hrep : ev.reportsTo k = [])
    (hopen : ∀ ref, y.sharesOf k (a.hear k ev) ref = x.sharesOf k a ref) :
    Balanced y k (a.hear k ev) := by
  refine h.silent [] ?_ (by simp) (Account.hear_lastUserRef k a ev).ge ?_ hopen
  · rw [hear_reports, hrep]
  · rw [Account.hear_lastUserRef]
    exact h.last

section Rules

variable {pending : ℕ → OrderHandle → Prop} {l q : ℕ} {m : Market} {o : BookOrder}

/-- The table of an account that hears of shares taken off an order. -/
theorem hear_table_taken {ev : Event}
    (hgone : ∀ ref, ev.gone k = some ref ↔ o.owner = k ∧ q = o.qty ∧ o.userRef = ref) (ref : ℕ) :
    (a.hear k ev).table ref =
      if o.owner = k ∧ q = o.qty ∧ o.userRef = ref then none else a.table ref := by
  rw [Account.hear_table]
  simp only [hgone]

/-- A cancel of a resting order, whoever it is for. -/
theorem Balanced.restingCancelled {t : Option (ℕ × OrderRequest × ℕ)} (h : Balanced ⟨r, t⟩ k a)
    (hex : Exact r k a pending) (hr : r.WF) (hm : r.market? l = some m) (ho : o ∈ m.orders)
    (hpos : 0 < q) (hle : q ≤ o.qty) (hr' : (r.setMarket l (m.take o q)).WF) (why : CancelReason) :
    Balanced ⟨r.setMarket l (m.take o q), t⟩ k (a.hear k (.restingCancelled l o q why)) := by
  have hgone : ∀ ref, (Event.restingCancelled l o q why).gone k = some ref ↔
      o.owner = k ∧ q = o.qty ∧ o.userRef = ref := by
    intro ref
    simp only [Event.gone]
    split_ifs with hc
    · simp [hc]
    · simp only [false_iff]
      exact fun hn => hc ⟨hn.1, hn.2.1⟩
  have hrest := hex.restingQty_take hr hm ho hle hr' (hear_table_taken (a := a) hgone)
  by_cases hown : o.owner = k
  · refine h.close o.userRef q (.inr rfl) (if_pos hown) hpos fun ref => ?_
    have := hrest ref
    simp only [hown, true_and, eq_comm (a := o.userRef)] at this
    simp only [Flow.sharesOf, Flow.takingQty] at this ⊢
    omega
  · refine h.quiet (if_neg hown) fun ref => ?_
    have := hrest ref
    rw [if_neg fun hc => hown hc.1] at this
    simp only [Flow.sharesOf, Flow.takingQty] at this ⊢
    omega

/-- A fill, whoever makes and takes. -/
theorem Balanced.fill {req : OrderRequest} {remaining : ℕ} {rest : List BookOrder}
    (h : Balanced ⟨r, some (l, req, remaining)⟩ k a) (hk : k ≠ 0) (hex : Exact r k a pending)
    (hr : r.WF) (hm : r.market? l = some m) (hfront : m.side req.side.opposite = o :: rest)
    (hremaining : 0 < remaining) (hother : ¬ (req.owner ≠ 0 ∧ o.owner = req.owner))
    (hq : q = min remaining o.qty) (hr' : (r.setMarket l (m.take o q)).WF) :
    Balanced ⟨{ r.setMarket l (m.take o q) with nextMatch := (r.nextMatch + 1) % 2 ^ 64 },
        Flow.taking l req (remaining - q)⟩ k
      (a.hear k (.fill l (MatchingEngine.makeFill r.nextMatch req o q remaining))) := by
  have ho : o ∈ m.orders := (Market.mem_orders_iff m).mpr ⟨_, by rw [hfront]; simp⟩
  have hoqty := (hr.market hm).qty_pos o ho
  have hpos : 0 < q := by omega
  have hle : q ≤ o.qty := by omega
  set ev : Event := .fill l (MatchingEngine.makeFill r.nextMatch req o q remaining) with hev
  have hgone : ∀ ref, ev.gone k = some ref ↔ o.owner = k ∧ q = o.qty ∧ o.userRef = ref := by
    intro ref
    simp only [hev, Event.gone, MatchingEngine.makeFill]
    split_ifs with hc
    · have : q = o.qty := by omega
      simp [hc.1, this]
    · simp only [false_iff]
      exact fun hn => hc ⟨hn.1, by omega⟩
  have hrest : ∀ ref, a.restingQty r ref =
      (a.hear k ev).restingQty
          { r.setMarket l (m.take o q) with nextMatch := (r.nextMatch + 1) % 2 ^ 64 } ref +
        if o.owner = k ∧ o.userRef = ref then q else 0 :=
    hex.restingQty_take hr hm ho hle hr' (hear_table_taken (a := a) hgone)
  have hbefore : ∀ ref, Flow.sharesOf ⟨r, some (l, req, remaining)⟩ k a ref =
      a.restingQty r ref + if req.owner = k ∧ req.userRef = ref then remaining else 0 :=
    fun _ => rfl
  have hafter : ∀ ref, Flow.sharesOf
      ⟨{ r.setMarket l (m.take o q) with nextMatch := (r.nextMatch + 1) % 2 ^ 64 },
        Flow.taking l req (remaining - q)⟩ k (a.hear k ev) ref =
      (a.hear k ev).restingQty
          { r.setMarket l (m.take o q) with nextMatch := (r.nextMatch + 1) % 2 ^ 64 } ref +
        if req.owner = k ∧ req.userRef = ref then remaining - q else 0 :=
    fun ref => congrArg _ (takingQty_taking _ l req (remaining - q) k ref)
  have hqle : q ≤ remaining := by omega
  by_cases hown : o.owner = k
  · -- the maker; the taker is another one
    have htaker : req.owner ≠ k := fun hc => hother ⟨hc ▸ hk, hown.trans hc.symm⟩
    refine h.close o.userRef q (.inl ⟨r.nextMatch % 2 ^ 64, rfl⟩) ?_ hpos fun ref => ?_
    · simp only [hev, Event.reportsTo, MatchingEngine.makeFill, if_pos hown, if_neg htaker,
        List.append_nil]
    · rw [hbefore, hafter, hrest ref]
      simp only [hown, htaker, true_and, false_and, if_false, eq_comm (a := o.userRef),
        Nat.add_zero]
  by_cases htaker : req.owner = k
  · refine h.close req.userRef q (.inl ⟨r.nextMatch % 2 ^ 64, rfl⟩) ?_ hpos fun ref => ?_
    · simp only [hev, Event.reportsTo, MatchingEngine.makeFill, if_neg hown, if_pos htaker,
        List.nil_append]
    · rw [hbefore, hafter, hrest ref]
      simp only [hown, htaker, true_and, false_and, if_false, eq_comm (a := req.userRef),
        Nat.add_zero]
      split_ifs <;> omega
  · refine h.quiet ?_ fun ref => ?_
    · simp only [hev, Event.reportsTo, MatchingEngine.makeFill, if_neg hown, if_neg htaker,
        List.append_nil]
    · rw [hbefore, hafter, hrest ref]
      simp only [hown, htaker, false_and, if_false, Nat.add_zero]

/-- **Every rule of the event protocol keeps the account of every session balanced.** -/
theorem Balanced.hear (h : Balanced x k a) (hk : k ≠ 0) (hex : Exact x.engine k a pending)
    (hx : x.engine.WF) (hy : y.engine.WF) {ev : Event} (hstep : x.Step ev y)
    (haccepts : ∀ l req, ev = .accepted l req → req.owner = k → Fits a req)
    (hrests : ∀ l o, ev = .rested l o → ∀ ref,
      pending ref ⟨l, o.id⟩ ↔ o.owner = k ∧ o.userRef = ref) :
    Balanced y k (a.hear k ev) := by
  -- an event without a resting order leaves the table alone
  have hsame : ∀ {r : RefEngine}, ev.gone k = none → ∀ ref,
      (a.hear k ev).restingQty r ref = a.restingQty r ref := by
    intro r hg ref
    rw [Account.restingQty, Account.hear_table, hg]
    rfl
  cases hstep with
  | @rejected r l req why hwhy =>
    refine h.silent _ (hear_reports k a _) (fun rep hrep => ?_) (Account.hear_lastUserRef k a _).ge ?_
      fun ref => ?_
    · simp only [Event.reportsTo] at hrep
      split_ifs at hrep
      · rw [List.mem_singleton.mp hrep]
        rfl
      · exact absurd hrep List.not_mem_nil
    · rw [Account.hear_lastUserRef]
      exact h.last
    · rw [Flow.sharesOf, hsame rfl]
      rfl
  | @accepted r l req hok =>
    by_cases hown : req.owner = k
    · obtain ⟨hnew, hle, hqty⟩ := haccepts l req rfl hown
      have href : req.userRef < 2 ^ 32 := lt_of_le_of_lt hle h.last
      refine h.opening req.userRef req.qty ?_ hnew hle hqty
        (Account.hear_lastUserRef k a _) fun ref => ?_
      · rw [hear_reports, Event.reportsTo, if_pos hown, Nat.mod_eq_of_lt href,
          Nat.mod_eq_of_lt hqty]
      · simp only [Flow.sharesOf, hsame rfl, Flow.takingQty, hown, true_and, Nat.add_zero,
          eq_comm (a := req.userRef)]
    · refine h.quiet (if_neg hown) fun ref => ?_
      simp only [Flow.sharesOf, hsame rfl, Flow.takingQty, hown, false_and, if_false]
  | fill hmarket hfront hremaining hcross hother =>
    exact h.fill hk hex hx hmarket hfront hremaining hother rfl hy
  | @selfMatch r l m req remaining maker rest hmarket hfront hremaining hown hstp =>
    have ho : maker ∈ m.orders := (Market.mem_orders_iff m).mpr ⟨_, by rw [hfront]; simp⟩
    have hpos := (hx.market hmarket).qty_pos maker ho
    exact h.restingCancelled hex hx hmarket ho hpos le_rfl hy .selfMatch
  | @takerCancelled r l req remaining why hremaining =>
    by_cases hown : req.owner = k
    · refine h.close req.userRef remaining (.inr rfl) (if_pos hown) hremaining
        fun ref => ?_
      simp only [Flow.sharesOf, hsame rfl, Flow.takingQty, hown, true_and, Nat.add_zero,
        eq_comm (a := req.userRef)]
    · refine h.quiet (if_neg hown) fun ref => ?_
      simp only [Flow.sharesOf, hsame rfl, Flow.takingQty, hown, false_and, if_false]
  | @rested r l m req remaining hmarket hremaining hday hgrid hroom hclear =>
    have hfresh : m.find (req.resting remaining).id = none := by
      by_contra hc
      exact hroom (.inr (.inr (Option.isSome_iff_ne_none.mpr hc)))
    have hrest := hex.restingQty_rest hx hmarket hfresh hy (hrests l _ rfl)
    refine h.quiet rfl fun ref => ?_
    have := hrest ref
    simp only [Flow.sharesOf, hsame rfl, Flow.takingQty, Nat.add_zero]
    exact this
  | @cancelled r l m o shares why hmarket hfind hpos hle =>
    have ho := ((hx.market hmarket).find_eq_some_iff.mp hfind).1
    exact h.restingCancelled hex hx hmarket ho hpos hle hy why

end Rules

end Desk

end PulseForge
