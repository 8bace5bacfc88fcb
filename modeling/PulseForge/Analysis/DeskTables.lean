import PulseForge.Analysis.DeskRests

/-!
# The tables of the sessions are the orders that rest

`Desk.Inv` says that every table holds exactly the orders of its session that rest, and that
only open sessions have orders resting. Every move keeps it. While an order of a session is
being entered its table also holds that order, which does not rest yet (`TablesHold` with a
pending entry).
-/

set_option autoImplicit false

namespace PulseForge

/-- **Listeners to one call.** What holds before the call and while an order is being
matched, and what holds after the last event. -/
theorem Flow.Steps.fold {σ : Type} {f : σ → Event → σ} {R Q : Flow → σ → Prop} {x z : Flow}
    {evs : List Event} (h : Flow.Steps x evs z)
    (hstep : ∀ x ev y s, ev ∈ evs → x.engine.WF → y.engine.WF → x.Step ev y → R x s →
      (y.taker ≠ none → R y (f s ev)) ∧ (y.taker = none → Q y (f s ev)))
    (hne : evs ≠ []) (hz : z.taker = none) (hx : x.engine.WF) {s : σ} (hR : R x s) :
    Q z (evs.foldl f s) := by
  induction h generalizing s with
  | nil => exact absurd rfl hne
  | @cons x y z ev evs hs hwf hbusy htail ih =>
    obtain ⟨hmid, hend⟩ := hstep x ev y s List.mem_cons_self hx hwf hs hR
    by_cases hy : y.taker = none
    · obtain rfl := hbusy hy
      cases htail with
      | nil => exact hend hy
    · have hne' : evs ≠ [] := by
        rintro rfl
        cases htail with
        | nil => exact hy hz
      exact ih (fun x ev y s hev => hstep x ev y s (List.mem_cons_of_mem _ hev)) hne' hz hwf
        (hmid hy)

/-- Steps of the flow keep the markets well-formed. -/
theorem Flow.Steps.wf {x z : Flow} {evs : List Event} (h : Flow.Steps x evs z)
    (hx : x.engine.WF) : z.engine.WF := by
  induction h with
  | nil => exact hx
  | cons _ hwf _ _ ih => exact ih hwf

namespace Desk

/-! ## Accounts that hear an event -/

variable {d : Desk} {k : ℕ} {a : Account}

/-- An event takes the entry of the order that is gone. -/
theorem Account.hear_table (k : ℕ) (a : Account) (ev : Event) (ref : ℕ) :
    (a.hear k ev).table ref = if ev.gone k = some ref then none else a.table ref := by
  unfold Account.hear
  cases hg : ev.gone k with
  | none => simp [Account.report]
  | some r =>
    simp only [Account.set, Account.report, Option.some.injEq]
    by_cases hr : ref = r
    · rw [if_pos hr, if_pos hr.symm]
    · rw [if_neg hr, if_neg (Ne.symm hr)]

/-- An event takes no reference. -/
@[simp] theorem Account.hear_lastUserRef (k : ℕ) (a : Account) (ev : Event) :
    (a.hear k ev).lastUserRef = a.lastUserRef := by
  unfold Account.hear
  split <;> rfl

/-- An event does not change the kind of an account. -/
@[simp] theorem Account.hear_orderEntry (k : ℕ) (a : Account) (ev : Event) :
    (a.hear k ev).orderEntry = a.orderEntry := by
  unfold Account.hear
  split <;> rfl

/-- An account that heard an event was there before. -/
theorem hear_account_some {ev : Event} (h : (d.hear ev).account k = some a) :
    ∃ a₀, d.account k = some a₀ ∧ a = a₀.hear k ev := by
  simp only [hear, Option.map_eq_some_iff] at h
  obtain ⟨a₀, h₀, rfl⟩ := h
  exact ⟨a₀, h₀, rfl⟩

/-- Events neither open accounts nor close them. -/
theorem hear_isSome (d : Desk) (ev : Event) (k : ℕ) :
    ((d.hear ev).account k).isSome = (d.account k).isSome := by
  simp [hear]

/-! ## The tables, event by event -/

/-- Every table holds the orders of its session that rest, and what is pending. -/
def TablesHold (r : RefEngine) (account : ℕ → Option Account)
    (pending : ℕ → ℕ → OrderHandle → Prop) : Prop :=
  ∀ k a, account k = some a → ∀ ref h, a.table ref = some h ↔ Rests r k ref h ∨ pending k ref h

/-- Only open sessions, and the synthetic flow, have orders resting. -/
def OwnersOpen (r : RefEngine) (account : ℕ → Option Account) : Prop :=
  ∀ k ref h, Rests r k ref h → k ≠ 0 → (account k).isSome

/-- **One event keeps the tables.** A pending order does not rest before the event, and an
order that comes to rest was pending. -/
theorem TablesHold.hear {x y : Flow} {ev : Event} {pending : ℕ → ℕ → OrderHandle → Prop}
    (ht : TablesHold x.engine d.account pending) (hx : x.engine.WF) (hstep : x.Step ev y)
    (hpending : ∀ k ref h, pending k ref h → ∀ k' ref', ¬ Rests x.engine k' ref' h)
    (hadds : ∀ k ref h, ev.Adds k ref h → (d.account k).isSome → pending k ref h) :
    TablesHold y.engine (d.hear ev).account pending := by
  intro k a ha ref h
  obtain ⟨a₀, ha₀, rfl⟩ := hear_account_some ha
  have htab := ht k a₀ ha₀
  rw [Account.hear_table, hstep.rests_iff hx]
  -- the order that goes is the one the table has under its reference
  have hgone : ev.gone k = some ref → a₀.table ref = some h →
      Rests x.engine k ref h ∧ ev.Removes h := by
    intro hg hh
    obtain ⟨h', hrests, hrem⟩ := hstep.rests_of_gone hx hg
    obtain rfl : h' = h := Option.some.inj (((htab ref h').mpr (.inl hrests)).symm.trans hh)
    exact ⟨hrests, hrem⟩
  constructor
  · intro hh
    split_ifs at hh with hg
    rcases (htab ref h).mp hh with hrests | hp
    · refine .inl (.inl ⟨hrests, fun hrem => hg ?_⟩)
      exact hstep.gone_of_removes hx hrem hrests
    · exact .inr hp
  · intro hh
    have hin : a₀.table ref = some h := by
      rcases hh with (⟨hrests, -⟩ | hadd) | hp
      · exact (htab ref h).mpr (.inl hrests)
      · exact (htab ref h).mpr (.inr (hadds k ref h hadd (by rw [ha₀]; rfl)))
      · exact (htab ref h).mpr (.inr hp)
    rw [if_neg, hin]
    intro hg
    obtain ⟨hrests, hrem⟩ := hgone hg hin
    rcases hh with (⟨-, hnot⟩ | hadd) | hp
    · exact hnot hrem
    · exact hpending k ref h (hadds k ref h hadd (by rw [ha₀]; rfl)) k ref hrests
    · exact hpending k ref h hp k ref hrests

/-- One event keeps the owners open. -/
theorem OwnersOpen.hear {x y : Flow} {ev : Event} (ho : OwnersOpen x.engine d.account)
    (hx : x.engine.WF) (hstep : x.Step ev y)
    (hadds : ∀ k ref h, ev.Adds k ref h → k ≠ 0 → (d.account k).isSome) :
    OwnersOpen y.engine (d.hear ev).account := by
  intro k ref h hrests h0
  rw [hear_isSome]
  rcases (hstep.rests_iff hx k ref h).mp hrests with ⟨hrests, -⟩ | hadd
  · exact ho k ref h hrests h0
  · exact hadds k ref h hadd h0

/-! ## A submit -/

/-- The entry of the order that is being submitted. -/
def entryOf (locate : ℕ) (req : OrderRequest) : ℕ → ℕ → OrderHandle → Prop :=
  fun k ref h => k = req.owner ∧ ref = req.userRef ∧ h = ⟨locate, req.id⟩

/-- A submit can only add the entry of its own order. -/
theorem adds_during {ev : Event} {locate : ℕ} {req : OrderRequest} (h : ev.During locate req)
    {k ref : ℕ} {hd : OrderHandle} (hadd : ev.Adds k ref hd) : entryOf locate req k ref hd := by
  cases ev with
  | rested l o =>
    obtain ⟨rfl, q, rfl⟩ := h
    exact hadd
  | _ => exact absurd hadd id

/-- An entry is added when its taker is done. -/
theorem adds_taker {x y : Flow} {ev : Event} (hstep : x.Step ev y) {k ref : ℕ} {h : OrderHandle}
    (hadd : ev.Adds k ref h) : y.taker = none := by
  cases hstep <;> first | rfl | exact absurd hadd id

/-- What holds before a submit and while its order is being matched. -/
structure Entering (locate : ℕ) (req : OrderRequest) (x : Flow) (d : Desk) : Prop where
  tables : TablesHold x.engine d.account (entryOf locate req)
  owners : OwnersOpen x.engine d.account
  fresh : ∀ k ref, ¬ Rests x.engine k ref ⟨locate, req.id⟩
  ids : ∀ k ref h, Rests x.engine k ref h → h.id < d.nextOrderId

/-- What holds after it. -/
structure Entered (locate : ℕ) (req : OrderRequest) (y : Flow) (d : Desk) : Prop where
  tables : TablesHold y.engine d.account (entryOf locate req)
  owners : OwnersOpen y.engine d.account
  mine : ∀ k ref, Rests y.engine k ref ⟨locate, req.id⟩ → k = req.owner ∧ ref = req.userRef
  ids : ∀ k ref h, Rests y.engine k ref h → h.id < d.nextOrderId

/-- One event of a submit. -/
theorem Entering.step {locate : ℕ} {req : OrderRequest} {x y : Flow} {ev : Event}
    (h : Entering locate req x d) (hx : x.engine.WF) (hstep : x.Step ev y)
    (hduring : ev.During locate req) (hid : req.id < d.nextOrderId)
    (howner : req.owner ≠ 0 → (d.account req.owner).isSome) :
    (y.taker ≠ none → Entering locate req y (d.hear ev)) ∧ Entered locate req y (d.hear ev) := by
  have hrests := hstep.rests_iff hx
  have htables : TablesHold y.engine (d.hear ev).account (entryOf locate req) := by
    refine h.tables.hear hx hstep ?_ fun k ref hd hadd _ => adds_during hduring hadd
    rintro k ref hd ⟨rfl, rfl, rfl⟩ k' ref'
    exact h.fresh k' ref'
  have howners : OwnersOpen y.engine (d.hear ev).account := by
    refine h.owners.hear hx hstep fun k ref hd hadd h0 => ?_
    obtain ⟨rfl, -, -⟩ := adds_during hduring hadd
    exact howner h0
  have hids : ∀ k ref h, Rests y.engine k ref h → h.id < (d.hear ev).nextOrderId := by
    intro k ref hd hr
    rcases (hrests k ref hd).mp hr with ⟨hr, -⟩ | hadd
    · exact h.ids k ref hd hr
    · obtain ⟨-, -, rfl⟩ := adds_during hduring hadd
      exact hid
  refine ⟨fun hy => ⟨htables, howners, fun k ref hr => ?_, hids⟩, htables, howners,
    fun k ref hr => ?_, hids⟩
  · rcases (hrests k ref _).mp hr with ⟨hr, -⟩ | hadd
    · exact h.fresh k ref hr
    · exact hy (adds_taker hstep hadd)
  · rcases (hrests k ref _).mp hr with ⟨hr, -⟩ | hadd
    · exact absurd hr (h.fresh k ref)
    · obtain ⟨rfl, rfl, -⟩ := adds_during hduring hadd
      exact ⟨rfl, rfl⟩

/-- What a call does not touch: who is open, the counters, the answers. -/
theorem foldl_hear_frame (evs : List Event) (d : Desk) :
    (evs.foldl hear d).nextOrderId = d.nextOrderId ∧
      (evs.foldl hear d).nextSessionId = d.nextSessionId ∧
      (evs.foldl hear d).answers = d.answers ∧ (evs.foldl hear d).log = d.log ++ evs ∧
      ∀ k, ((evs.foldl hear d).account k).isSome = (d.account k).isSome := by
  induction evs generalizing d with
  | nil => simp
  | cons ev evs ih =>
    obtain ⟨h1, h2, h3, h4, h5⟩ := ih (d.hear ev)
    refine ⟨h1, h2, h3, ?_, fun k => ?_⟩
    · rw [List.foldl_cons, h4]
      simp [hear]
    · rw [List.foldl_cons, h5, hear_isSome]

/-- **A submit**, from the pending entry to the tables after it. -/
theorem Entering.submit {locate : ℕ} {req : OrderRequest}
    (h : Entering locate req ⟨d.engine, none⟩ d) (hwf : d.engine.WF)
    (hcall : Submits d.engine locate req) (hid : req.id < d.nextOrderId)
    (howner : req.owner ≠ 0 → (d.account req.owner).isSome) :
    Entered locate req ⟨(d.submit locate req).engine, none⟩ (d.submit locate req) := by
  have hfold := hcall.steps.fold (f := Desk.hear)
    (R := fun x d => Entering locate req x d ∧ req.id < d.nextOrderId ∧
      (req.owner ≠ 0 → (d.account req.owner).isSome))
    (Q := Entered locate req) (s := d)
    (fun x ev y d hev hx _ hstep ⟨hd, hid, howner⟩ => by
      obtain ⟨hmid, hend⟩ := hd.step hx hstep (hcall.during ev hev) hid howner
      refine ⟨fun hy => ⟨hmid hy, hid, ?_⟩, fun _ => hend⟩
      rw [hear_isSome]
      exact howner)
    hcall.nonempty rfl hwf ⟨h, hid, howner⟩
  exact ⟨hfold.tables, hfold.owners, hfold.mine, hfold.ids⟩

/-! ## The invariant -/

/-- The tables are exact, and every answer to a client's cancel was a success or no change. -/
structure Inv (d : Desk) : Prop where
  wf : d.engine.WF
  noZero : d.account 0 = none
  tables : TablesHold d.engine d.account fun _ _ _ => False
  owners : OwnersOpen d.engine d.account
  ids : ∀ k ref h, Rests d.engine k ref h → h.id < d.nextOrderId
  refs : ∀ k a, d.account k = some a → ∀ ref h, a.table ref = some h → ref ≤ a.lastUserRef
  answers : ∀ p ∈ d.answers, p.1 ≠ 0 → p.2 = .ok ∨ p.2 = .noChange

/-- The table of a session is what rests of its orders. -/
theorem Inv.table_iff (h : d.Inv) (hk : d.account k = some a) (ref : ℕ) (hd : OrderHandle) :
    a.table ref = some hd ↔ Rests d.engine k ref hd := by
  rw [h.tables k a hk]
  simp

/-- References stay below the last one while events are heard. -/
theorem refs_hear {ev : Event}
    (h : ∀ k a, d.account k = some a → ∀ ref h, a.table ref = some h → ref ≤ a.lastUserRef) :
    ∀ k a, (d.hear ev).account k = some a → ∀ ref h, a.table ref = some h →
      ref ≤ a.lastUserRef := by
  intro k a ha ref hd hh
  obtain ⟨a₀, ha₀, rfl⟩ := hear_account_some ha
  rw [Account.hear_table] at hh
  split_ifs at hh
  rw [Account.hear_lastUserRef]
  exact h k a₀ ha₀ ref hd hh

/-- Events bring no reference beyond the last one taken. -/
theorem refs_foldl_hear (evs : List Event)
    (h : ∀ k a, d.account k = some a → ∀ ref h, a.table ref = some h → ref ≤ a.lastUserRef) :
    ∀ k a, (evs.foldl hear d).account k = some a → ∀ ref h, a.table ref = some h →
      ref ≤ a.lastUserRef := by
  induction evs generalizing d with
  | nil => exact h
  | cons ev evs ih => exact ih (refs_hear h)

/-! ## A cancel -/

/-- What a cancel does: nothing, or it takes shares off the order of its owner. -/
theorem cancel_cases {r : RefEngine} (hr : r.WF) (l id newQty owner : ℕ) (why : CancelReason) :
    (∃ answer, r.cancel l id newQty owner why = (r, answer, []) ∧
      (answer = .noChange ∨ ∀ ref, ¬ Rests r owner ref ⟨l, id⟩)) ∨
    ∃ m o, r.market? l = some m ∧ m.find id = some o ∧ o.owner = owner ∧ newQty < o.qty ∧
      r.cancel l id newQty owner why = (r.setMarket l (m.take o (o.qty - newQty)), .ok,
        [.restingCancelled l o (o.qty - newQty) why]) := by
  unfold RefEngine.cancel
  cases hm : r.market? l with
  | none =>
    refine .inl ⟨_, rfl, .inr fun ref => ?_⟩
    rintro ⟨m, hm', -⟩
    exact absurd (hm.symm.trans hm') (by simp)
  | some m =>
    cases hfind : m.find id with
    | none =>
      simp only [hfind]
      refine .inl ⟨_, rfl, .inr fun ref => ?_⟩
      rintro ⟨m', hm', o, ho, -, -, hid⟩
      obtain rfl := Option.some.inj (hm.symm.trans hm')
      exact Market.find_eq_none_iff.mp hfind o ho hid
    | some o =>
      simp only [hfind]
      by_cases howner : o.owner ≠ owner
      · rw [if_pos howner]
        refine .inl ⟨_, rfl, .inr fun ref => ?_⟩
        rintro ⟨m', hm', o', ho', hown, -, hid⟩
        obtain rfl := Option.some.inj (hm.symm.trans hm')
        obtain ⟨ho, hid'⟩ := (hr.market hm).find_eq_some_iff.mp hfind
        obtain rfl := (hr.market hm).eq_of_id_eq ho' ho (hid.trans hid'.symm)
        exact howner hown
      · rw [if_neg howner]
        by_cases hqty : o.qty ≤ newQty
        · rw [if_pos hqty]
          exact .inl ⟨_, rfl, .inl rfl⟩
        · rw [if_neg hqty]
          exact .inr ⟨m, o, rfl, hfind, not_not.mp howner, by omega, rfl⟩

/-- The event of a cancel is a rule of the protocol. -/
theorem cancel_step {r : RefEngine} {l id newQty : ℕ} {m : Market} {o : BookOrder}
    (hr : r.WF) (hm : r.market? l = some m) (hfind : m.find id = some o) (hqty : newQty < o.qty)
    (why : CancelReason) :
    Flow.Step ⟨r, none⟩ (.restingCancelled l o (o.qty - newQty) why)
      ⟨r.setMarket l (m.take o (o.qty - newQty)), none⟩ := by
  have hfind' : m.find o.id = some o := by
    rw [((hr.market hm).find_eq_some_iff.mp hfind).2]
    exact hfind
  exact .cancelled hm hfind' (by omega) (Nat.sub_le _ _)

/-- **A cancel keeps the invariant**, if it is for an order of its owner. -/
theorem Inv.cancel (h : d.Inv) {l id owner : ℕ} (newQty : ℕ) (why : CancelReason)
    (hown : owner ≠ 0 → ∃ ref, Rests d.engine owner ref ⟨l, id⟩) :
    (d.cancel l id newQty owner why).Inv := by
  unfold Desk.cancel
  rcases cancel_cases h.wf l id newQty owner why with
    ⟨answer, hcan, hans⟩ | ⟨m, o, hm, hfind, rfl, hqty, hcan⟩
  · rw [hcan]
    refine ⟨h.wf, h.noZero, h.tables, h.owners, h.ids, h.refs, fun p hp h0 => ?_⟩
    rcases List.mem_append.mp hp with hp | hp
    · exact h.answers p hp h0
    · rw [List.mem_singleton.mp hp] at h0 ⊢
      rcases hans with rfl | hans
      · exact .inr rfl
      · obtain ⟨ref, hrests⟩ := hown h0
        exact absurd hrests (hans ref)
  · rw [hcan]
    have hstep := cancel_step h.wf hm hfind hqty why
    have ho := ((h.wf.market hm).find_eq_some_iff.mp hfind).1
    refine ⟨h.wf.setMarket ((h.wf.market hm).take ho (Nat.sub_le _ _)) l, ?_, ?_, ?_, ?_,
      refs_hear h.refs, fun p hp h0 => ?_⟩
    · simp [hear, h.noZero]
    · exact h.tables.hear h.wf hstep (fun _ _ _ hp => hp.elim) fun _ _ _ hadd => False.elim hadd
    · exact h.owners.hear h.wf hstep fun _ _ _ hadd => False.elim hadd
    · intro k ref hd hrests
      rcases (hstep.rests_iff h.wf k ref hd).mp hrests with ⟨hrests, -⟩ | hadd
      · exact h.ids k ref hd hrests
      · exact False.elim hadd
    · rcases List.mem_append.mp hp with hp | hp
      · exact h.answers p hp h0
      · rw [List.mem_singleton.mp hp]
        exact .inl rfl

/-- **Cancelling an order of a table** for all it has takes its entry off the table. -/
theorem Inv.cancel_table (h : d.Inv) {ref : ℕ} {hd : OrderHandle} (hk : d.account k = some a)
    (hh : a.table ref = some hd) (why : CancelReason) :
    ∃ a', (d.cancel hd.locate hd.id 0 k why).account k = some a' ∧
      a'.lastUserRef = a.lastUserRef ∧ a'.orderEntry = a.orderEntry ∧
      ∀ r, a'.table r = if r = ref then none else a.table r := by
  have hrests := (h.table_iff hk ref hd).mp hh
  unfold Desk.cancel
  rcases cancel_cases h.wf hd.locate hd.id 0 k why with
    ⟨answer, hcan, hans⟩ | ⟨m, o, hm, hfind, rfl, hqty, hcan⟩
  · -- the order is there, and it has shares
    exfalso
    obtain ⟨m, hm, o, ho, rfl, rfl, hid⟩ := hrests
    have hfind := (h.wf.market hm).find_eq_some_iff.mpr ⟨ho, hid⟩
    have hpos := (h.wf.market hm).qty_pos o ho
    rw [RefEngine.cancel, hm] at hcan
    simp only [hfind, ne_eq, not_true_eq_false, if_false, Nat.not_le.mpr hpos, Prod.mk.injEq,
      List.cons_ne_nil, and_false] at hcan
  · rw [hcan]
    have hstep := cancel_step h.wf hm hfind hqty why
    obtain ⟨ho, hid⟩ := (h.wf.market hm).find_eq_some_iff.mp hfind
    have hgone : Event.gone o.owner (.restingCancelled hd.locate o (o.qty - 0) why) = some ref := by
      refine hstep.gone_of_removes h.wf (h := hd) ⟨rfl, ?_⟩ hrests
      rw [hid]
    refine ⟨a.hear o.owner (.restingCancelled hd.locate o (o.qty - 0) why), ?_, by simp, by simp,
      fun r => ?_⟩
    · simp [hear, hk]
    · rw [Account.hear_table, hgone]
      simp [eq_comm]

/-- Cancelling opens no session. -/
theorem cancelAll_nextSessionId (d : Desk) (k : ℕ) (live : List (ℕ × OrderHandle)) :
    (d.cancelAll k live).nextSessionId = d.nextSessionId := by
  induction live generalizing d with
  | nil => rfl
  | cons p live ih => exact (ih _).trans (foldl_hear_frame _ _).2.1

/-- **Cancelling every order of a table** empties it. -/
theorem Inv.cancelAll {live : List (ℕ × OrderHandle)} (h : d.Inv) (hk : d.account k = some a)
    (hlive : ∀ p ∈ live, a.table p.1 = some p.2) (hnodup : (live.map Prod.fst).Nodup) :
    (d.cancelAll k live).Inv ∧ ∃ a', (d.cancelAll k live).account k = some a' ∧
      ∀ r, a'.table r = if r ∈ live.map Prod.fst then none else a.table r := by
  induction live generalizing d a with
  | nil => exact ⟨h, a, hk, by simp⟩
  | cons p live ih =>
    rw [List.map_cons, List.nodup_cons] at hnodup
    have hp := hlive p List.mem_cons_self
    obtain ⟨a₁, hk₁, -, -, htab₁⟩ := h.cancel_table hk hp .supervisory
    have h₁ : (d.cancel p.2.locate p.2.id 0 k .supervisory).Inv := h.cancel 0 .supervisory
      fun _ => ⟨p.1, (h.table_iff hk p.1 p.2).mp hp⟩
    have hlive₁ : ∀ p' ∈ live, a₁.table p'.1 = some p'.2 := by
      intro p' hp'
      have hne : p'.1 ≠ p.1 := fun hc => hnodup.1 (hc ▸ List.mem_map_of_mem hp')
      rw [htab₁, if_neg hne]
      exact hlive p' (List.mem_cons_of_mem _ hp')
    obtain ⟨h₂, a₂, hk₂, htab₂⟩ := ih h₁ hk₁ hlive₁ hnodup.2
    refine ⟨h₂, a₂, hk₂, fun r => ?_⟩
    rw [htab₂, htab₁, List.map_cons]
    by_cases hr : r ∈ live.map Prod.fst
    · rw [if_pos hr, if_pos (List.mem_cons_of_mem _ hr)]
    · rw [if_neg hr]
      by_cases hrp : r = p.1
      · rw [if_pos hrp, if_pos (by rw [hrp]; exact List.mem_cons_self)]
      · rw [if_neg hrp, if_neg (by rw [List.mem_cons]; exact fun hc => hc.elim hrp hr)]

/-! ## Every move -/

/-- A change that writes no table keeps the invariant. -/
theorem Inv.of_same {d' : Desk} (h : d.Inv) (hengine : d'.engine = d.engine)
    (hid : d.nextOrderId ≤ d'.nextOrderId) (hans : d'.answers = d.answers)
    (hsome : ∀ k, (d'.account k).isSome = (d.account k).isSome)
    (hacc : ∀ k a', d'.account k = some a' → ∃ a, d.account k = some a ∧ a'.table = a.table ∧
      a.lastUserRef ≤ a'.lastUserRef) : d'.Inv := by
  refine ⟨hengine ▸ h.wf, ?_, ?_, ?_, ?_, ?_, hans ▸ h.answers⟩
  · rw [← Option.not_isSome_iff_eq_none, hsome, h.noZero]
    simp
  · intro k a' ha' ref hd
    obtain ⟨a, ha, htab, -⟩ := hacc k a' ha'
    rw [hengine, htab]
    exact h.tables k a ha ref hd
  · intro k ref hd hrests h0
    rw [hsome]
    exact h.owners k ref hd (hengine ▸ hrests) h0
  · intro k ref hd hrests
    exact lt_of_lt_of_le (h.ids k ref hd (hengine ▸ hrests)) hid
  · intro k a' ha' ref hd hh
    obtain ⟨a, ha, htab, hle⟩ := hacc k a' ha'
    rw [htab] at hh
    exact (h.refs k a ha ref hd hh).trans hle

/-- An update neither opens an account nor closes one. -/
theorem update_isSome (d : Desk) (k : ℕ) (f : Account → Account) (j : ℕ) :
    ((d.update k f).account j).isSome = (d.account j).isSome := by
  simp only [update]
  split <;> simp

/-- An account behind an update. -/
theorem update_account_some {f : Account → Account} {j : ℕ} {a' : Account}
    (h : (d.update k f).account j = some a') :
    ∃ a, d.account j = some a ∧ a' = if j = k then f a else a := by
  simp only [update] at h
  split_ifs at h with hj
  · obtain ⟨a, ha, rfl⟩ := Option.map_eq_some_iff.mp h
    exact ⟨a, ha, (if_pos hj).symm⟩
  · exact ⟨a', h, (if_neg hj).symm⟩

/-- No order rests under the next id. -/
theorem Inv.fresh (h : d.Inv) {locate id : ℕ} (hid : id = d.nextOrderId) (j ref : ℕ) :
    ¬ Rests d.engine j ref ⟨locate, id⟩ := by
  intro hrests
  have hlt := h.ids j ref _ hrests
  simp only [hid] at hlt
  omega

/-- What a submit leaves alone. -/
theorem submit_frame {locate : ℕ} {req : OrderRequest} (hwf : d.engine.WF)
    (hzero : d.account 0 = none)
    (hrefs : ∀ k a, d.account k = some a → ∀ ref h, a.table ref = some h → ref ≤ a.lastUserRef)
    (hcall : Submits d.engine locate req) :
    (d.submit locate req).engine.WF ∧ (d.submit locate req).account 0 = none ∧
      (d.submit locate req).answers = d.answers ∧
      ∀ k a, (d.submit locate req).account k = some a → ∀ ref h, a.table ref = some h →
        ref ≤ a.lastUserRef := by
  obtain ⟨-, -, hans, -, hsome⟩ := foldl_hear_frame (d.engine.submit locate req).2 d
  refine ⟨hcall.steps.wf hwf, ?_, hans, refs_foldl_hear _ hrefs⟩
  rw [← Option.not_isSome_iff_eq_none]
  show ¬ ((List.foldl hear d (d.engine.submit locate req).2).account 0).isSome = true
  rw [hsome, hzero]
  simp

section Entered

variable {locate : ℕ} {req : OrderRequest}

/-- The desk at the call of a session's submit: the handle is written, and the id used up. -/
def pend (d : Desk) (k locate : ℕ) (req : OrderRequest) : Desk :=
  { d.update k fun a =>
      { a with lastUserRef := req.userRef }.set req.userRef (some ⟨locate, req.id⟩) with
    nextOrderId := d.nextOrderId + 1 }

/-- A submit neither opens an account nor closes one. -/
theorem pend_isSome (d : Desk) (k j : ℕ) :
    ((d.pend k locate req).account j).isSome = (d.account j).isSome :=
  update_isSome d k _ j

/-- An account behind the call of a submit. -/
theorem pend_account_some {j : ℕ} {a' : Account}
    (h : (d.pend k locate req).account j = some a') :
    ∃ a₀, d.account j = some a₀ ∧ a' = if j = k then
      { a₀ with lastUserRef := req.userRef }.set req.userRef (some ⟨locate, req.id⟩) else a₀ :=
  update_account_some h

/-- The tables at the call: the new entry is pending. -/
theorem Inv.pend_tables (h : d.Inv) (hk : d.account k = some a) (howner : req.owner = k)
    (hnew : a.lastUserRef < req.userRef) :
    TablesHold d.engine (d.pend k locate req).account (entryOf locate req) := by
  have hnone : ∀ hd, ¬ Rests d.engine k req.userRef hd := by
    intro hd hrests
    have hle := h.refs k a hk _ hd ((h.table_iff hk req.userRef hd).mpr hrests)
    omega
  intro j a' ha' ref hd
  obtain ⟨a₀, ha₀, rfl⟩ := pend_account_some ha'
  by_cases hj : j = k
  · subst hj
    obtain rfl := Option.some.inj (hk.symm.trans ha₀)
    rw [if_pos rfl]
    simp only [Account.set]
    by_cases href : ref = req.userRef
    · rw [if_pos href, href]
      constructor
      · intro hh
        exact .inr ⟨howner.symm, rfl, (Option.some.inj hh).symm⟩
      · rintro (hrests | ⟨-, -, rfl⟩)
        · exact absurd hrests (hnone hd)
        · rfl
    · rw [if_neg href, h.table_iff hk]
      refine ⟨.inl, ?_⟩
      rintro (hrests | ⟨-, hc, -⟩)
      · exact hrests
      · exact absurd hc href
  · rw [if_neg hj, h.table_iff ha₀]
    refine ⟨.inl, ?_⟩
    rintro (hrests | ⟨hc, -, -⟩)
    · exact hrests
    · exact absurd (hc.trans howner) hj

/-- What holds when a session submits. -/
theorem Inv.pend_entering (h : d.Inv) (hk : d.account k = some a) (howner : req.owner = k)
    (hid : req.id = d.nextOrderId) (hnew : a.lastUserRef < req.userRef) :
    Entering locate req ⟨d.engine, none⟩ (d.pend k locate req) := by
  refine ⟨h.pend_tables hk howner hnew, fun j ref hd hrests h0 => ?_, h.fresh hid,
    fun j ref hd hrests => Nat.lt_succ_of_lt (h.ids j ref hd hrests)⟩
  rw [pend_isSome]
  exact h.owners j ref hd hrests h0

/-- Behind a submit no table has a reference beyond the last one taken. -/
theorem Inv.pend_refs (h : d.Inv) (hk : d.account k = some a) (hnew : a.lastUserRef < req.userRef) :
    ∀ j a', (d.pend k locate req).account j = some a' → ∀ ref hd, a'.table ref = some hd →
      ref ≤ a'.lastUserRef := by
  intro j a' ha' ref hd hh
  obtain ⟨a₀, ha₀, rfl⟩ := pend_account_some ha'
  by_cases hj : j = k
  · subst hj
    obtain rfl := Option.some.inj (hk.symm.trans ha₀)
    rw [if_pos rfl] at hh ⊢
    simp only [Account.set] at hh ⊢
    split_ifs at hh with href
    · exact href.le
    · have hle := h.refs j a hk ref hd hh
      omega
  · rw [if_neg hj] at hh ⊢
    exact h.refs j a₀ ha₀ ref hd hh

/-- The order came to rest: its entry stays. -/
theorem Entered.tables_rests {y : Flow} (h : Entered locate req y d)
    (hrests : ∃ j ref, Rests y.engine j ref ⟨locate, req.id⟩) :
    TablesHold y.engine d.account fun _ _ _ => False := by
  obtain ⟨j₀, ref₀, hrests₀⟩ := hrests
  obtain ⟨rfl, rfl⟩ := h.mine j₀ ref₀ hrests₀
  intro j a' ha' ref hd
  rw [h.tables j a' ha', or_false]
  refine ⟨?_, .inl⟩
  rintro (hrests | ⟨rfl, rfl, rfl⟩)
  · exact hrests
  · exact hrests₀

/-- It did not: its entry is dropped. -/
theorem Entered.tables_gone {y : Flow} (h : Entered locate req y d)
    (hno : ∀ j ref, ¬ Rests y.engine j ref ⟨locate, req.id⟩) :
    TablesHold y.engine (d.update req.owner fun a => a.set req.userRef none).account
      fun _ _ _ => False := by
  intro j a' ha' ref hd
  obtain ⟨a₀, ha₀, rfl⟩ := update_account_some ha'
  have htab := h.tables j a₀ ha₀
  rw [or_false]
  by_cases hj : j = req.owner
  · rw [if_pos hj]
    simp only [Account.set]
    by_cases href : ref = req.userRef
    · rw [if_pos href]
      refine ⟨fun hc => absurd hc (by simp), fun hrests => ?_⟩
      have hin := (htab ref hd).mpr (.inl hrests)
      have hmine := (htab ref ⟨locate, req.id⟩).mpr (.inr ⟨hj, href, rfl⟩)
      obtain rfl := Option.some.inj (hin.symm.trans hmine)
      exact absurd hrests (hno j ref)
    · rw [if_neg href, htab]
      refine ⟨?_, .inl⟩
      rintro (hrests | ⟨-, hc, -⟩)
      · exact hrests
      · exact absurd hc href
  · rw [if_neg hj, htab]
    refine ⟨?_, .inl⟩
    rintro (hrests | ⟨hc, -, -⟩)
    · exact hrests
    · exact absurd hc hj

/-- Whether the book has the order decides whether it rests. -/
theorem not_gone_iff {r : RefEngine} (hr : r.WF) (id : ℕ) :
    (¬ ∀ m, r.market? locate = some m → m.find id = none) ↔
      ∃ j ref, Rests r j ref ⟨locate, id⟩ := by
  push Not
  constructor
  · rintro ⟨m, hm, hfind⟩
    obtain ⟨o, ho⟩ := Option.ne_none_iff_exists'.mp hfind
    obtain ⟨ho, hoid⟩ := (hr.market hm).find_eq_some_iff.mp ho
    exact ⟨o.owner, o.userRef, m, hm, o, ho, rfl, rfl, hoid⟩
  · rintro ⟨j, ref, m, hm, o, ho, -, -, hoid⟩
    exact ⟨m, hm, fun hc => Market.find_eq_none_iff.mp hc o ho hoid⟩

/-- Entering an order of a session. -/
theorem Inv.entered (h : d.Inv) (hk : d.account k = some a)
    (howner : req.owner = k) (hid : req.id = d.nextOrderId) (hnew : a.lastUserRef < req.userRef)
    (hcall : Submits d.engine locate req) {d' : Desk}
    (hd' : d' = (d.pend k locate req).submit locate req)
    {gone : Prop} [Decidable gone] (hgone : gone ↔ ∀ m, d'.engine.market? locate = some m →
      m.find req.id = none) :
    (if gone then d'.update k fun a => a.set req.userRef none else d').Inv := by
  have hopen : ((d.pend k locate req).account req.owner).isSome := by
    rw [pend_isSome, howner, hk]
    rfl
  have hzero : (d.pend k locate req).account 0 = none := by
    rw [← Option.not_isSome_iff_eq_none, pend_isSome, h.noZero]
    simp
  have hlt : req.id < (d.pend k locate req).nextOrderId := by
    rw [hid]
    exact Nat.lt_succ_self _
  have hout := Entering.submit (d := d.pend k locate req)
    (h.pend_entering hk howner hid hnew) h.wf hcall hlt fun _ => hopen
  obtain ⟨hwf', hzero', hans', hrefs'⟩ :=
    submit_frame (d := d.pend k locate req) h.wf hzero (h.pend_refs hk hnew) hcall
  rw [← hd'] at hout hwf' hzero' hans' hrefs'
  have hans : ∀ p ∈ d'.answers, p.1 ≠ 0 → p.2 = .ok ∨ p.2 = .noChange := by
    rw [hans']
    exact h.answers
  -- whether the order rests decides whether its entry stays
  have hrests : ¬ gone ↔ ∃ j ref, Rests d'.engine j ref ⟨locate, req.id⟩ := by
    rw [hgone]
    exact not_gone_iff hwf' req.id
  split
  · next hg =>
    have hno : ∀ j ref, ¬ Rests d'.engine j ref ⟨locate, req.id⟩ := by
      intro j ref hc
      exact hrests.mpr ⟨j, ref, hc⟩ hg
    subst howner
    refine ⟨hwf', ?_, hout.tables_gone hno, fun j ref hd hr h0 => ?_, hout.ids, ?_, hans⟩
    · rw [← Option.not_isSome_iff_eq_none, update_isSome, hzero']
      simp
    · rw [update_isSome]
      exact hout.owners j ref hd hr h0
    · intro j a' ha' ref hd hh
      obtain ⟨a₀, ha₀, rfl⟩ := update_account_some ha'
      split_ifs at hh ⊢ with hj
      · simp only [Account.set] at hh ⊢
        split_ifs at hh
        exact hrefs' j a₀ ha₀ ref hd hh
      · exact hrefs' j a₀ ha₀ ref hd hh
  · next hg =>
    exact ⟨hwf', hzero', hout.tables_rests (hrests.mp hg), hout.owners, hout.ids, hrefs', hans⟩

/-- Entering an order of the synthetic flow: no table has an entry for it. -/
theorem Inv.synthetic (h : d.Inv) (howner : req.owner = 0)
    (hid : req.id = d.nextOrderId) (hcall : Submits d.engine locate req) :
    (({ d with nextOrderId := d.nextOrderId + 1 } : Desk).submit locate req).Inv := by
  set d₁ : Desk := { d with nextOrderId := d.nextOrderId + 1 } with hd₁
  -- the pending entry would belong to session 0, which is never open
  have hpend : ∀ {account : ℕ → Option Account}, account 0 = none → ∀ {j : ℕ} {a : Account},
      account j = some a → ∀ ref hd, ¬ entryOf locate req j ref hd := by
    rintro account h0 j a ha ref hd ⟨rfl, -, -⟩
    rw [howner, h0] at ha
    exact absurd ha (by simp)
  have hent : Entering locate req ⟨d₁.engine, none⟩ d₁ := by
    refine ⟨fun j a ha ref hd => ?_, h.owners, h.fresh hid,
      fun j ref hd hrests => Nat.lt_succ_of_lt (h.ids j ref hd hrests)⟩
    have hno := hpend h.noZero ha ref hd
    rw [h.tables j a ha]
    simp [hno, hd₁]
  have hout := hent.submit h.wf hcall (by rw [hid]; exact Nat.lt_succ_self _)
    (fun h0 => absurd howner h0)
  obtain ⟨hwf', hzero', hans', hrefs'⟩ := submit_frame (d := d₁) h.wf h.noZero h.refs hcall
  refine ⟨hwf', hzero', fun j a ha ref hd => ?_, hout.owners, hout.ids, hrefs', ?_⟩
  · rw [hout.tables j a ha]
    simp [hpend hzero' ha ref hd]
  · rw [hans']
    exact h.answers

end Entered

/-- Closing a session. -/
theorem Inv.closed (h : d.Inv) {live : List (ℕ × OrderHandle)} (hk : d.account k = some a)
    (hlive : ∀ p, p ∈ live ↔ a.table p.1 = some p.2) (hnodup : (live.map Prod.fst).Nodup) :
    ((d.cancelAll k live).drop k).Inv ∧
      ∀ ref hd, ¬ Rests ((d.cancelAll k live).drop k).engine k ref hd := by
  obtain ⟨h', a', hk', htab⟩ := h.cancelAll hk (fun p hp => (hlive p).mp hp) hnodup
  have hempty : ∀ ref hd, ¬ Rests (d.cancelAll k live).engine k ref hd := by
    intro ref hd hrests
    have hin := (h'.table_iff hk' ref hd).mpr hrests
    rw [htab] at hin
    split_ifs at hin with hmem
    exact hmem (List.mem_map.mpr ⟨(ref, hd), (hlive _).mpr hin, rfl⟩)
  refine ⟨⟨h'.wf, ?_, fun j b hb => ?_, fun j ref hd hrests h0 => ?_, h'.ids, fun j b hb => ?_,
    h'.answers⟩, hempty⟩
  · simp only [drop]
    split
    · rfl
    · exact h'.noZero
  · simp only [drop] at hb
    split_ifs at hb
    exact h'.tables j b hb
  · have hj : j ≠ k := by
      rintro rfl
      exact hempty ref hd hrests
    simp only [drop, if_neg hj]
    exact h'.owners j ref hd hrests h0
  · simp only [drop] at hb
    split_ifs at hb
    exact h'.refs j b hb

/-- An entered order uses up one order id. -/
theorem entered_nextOrderId {d' : Desk} {locate : ℕ} {req : OrderRequest}
    (hd' : d' = (d.pend k locate req).submit locate req) {gone : Prop} [Decidable gone]
    (f : Account → Account) :
    (if gone then d'.update k f else d').nextOrderId = d.nextOrderId + 1 := by
  have hid : d'.nextOrderId = d.nextOrderId + 1 := by
    rw [hd']
    exact (foldl_hear_frame _ _).1
  split
  · exact hid
  · exact hid

/-- What a session asks for, as long as the order ids have not wrapped. -/
theorem Inv.enters (h : d.Inv) {m : Ouch.EnterOrder} {d' : Desk} (hm : Enters k m d d')
    (hids : d'.nextOrderId ≤ 2 ^ 64) : d'.Inv := by
  cases hm with
  | rejected hk hold =>
    refine h.of_same rfl le_rfl rfl (update_isSome d k _) fun j b hb => ?_
    obtain ⟨b₀, hb₀, rfl⟩ := update_account_some hb
    refine ⟨b₀, hb₀, ?_, ?_⟩ <;> split <;> rfl
  | @refused a used hk hnew hused =>
    refine h.of_same rfl (Nat.le_add_right _ _) rfl (update_isSome d k _) fun j b hb => ?_
    obtain ⟨b₀, hb₀, rfl⟩ := update_account_some hb
    refine ⟨b₀, hb₀, ?_, ?_⟩
    · split <;> rfl
    · split
      · next hj =>
        rw [hj] at hb₀
        obtain rfl := Option.some.inj (hk.symm.trans hb₀)
        exact hnew.le
      · exact le_rfl
  | submitted hk hentry hnew hreq hcall hd' hgone =>
    subst hreq
    rw [entered_nextOrderId hd'] at hids
    exact h.entered hk rfl (Nat.mod_eq_of_lt hids) hnew hcall hd' hgone

/-- Accepting a connection, as long as no session gets the id 0. -/
theorem Inv.opens (h : d.Inv) {d' : Desk} (hopens : Opens d d') (hid : d.nextSessionId ≠ 0) :
    d'.Inv := by
  cases hopens with
  | opened orderEntry hfree =>
    refine ⟨h.wf, ?_, fun j b hb ref hd => ?_, fun j ref hd hrests h0 => ?_, h.ids,
      fun j b hb ref hd hh => ?_, h.answers⟩
    · simp only
      rw [if_neg (Ne.symm hid), h.noZero]
    · simp only at hb
      split_ifs at hb with hj
      · obtain rfl := Option.some.inj hb
        refine ⟨fun hc => absurd hc (by simp), ?_⟩
        rintro (hrests | hc)
        · have := h.owners j ref hd hrests (hj ▸ hid)
          rw [hj, hfree] at this
          exact absurd this (by simp)
        · exact hc.elim
      · exact h.tables j b hb ref hd
    · simp only
      split
      · rfl
      · exact h.owners j ref hd hrests h0
    · simp only at hb
      split_ifs at hb with hj
      · obtain rfl := Option.some.inj hb
        exact absurd hh (by simp)
      · exact h.refs j b hb ref hd hh
  | dropped htaken => exact h.of_same rfl le_rfl rfl (fun _ => rfl) fun j b hb => ⟨b, hb, rfl, le_rfl⟩

/-- A submit of the synthetic flow uses up one order id. -/
theorem synthetic_nextOrderId (d : Desk) (locate : ℕ) (req : OrderRequest) :
    (({ d with nextOrderId := d.nextOrderId + 1 } : Desk).submit locate req).nextOrderId =
      d.nextOrderId + 1 :=
  (foldl_hear_frame _ _).1

/-- **Every move keeps the tables exact**, as long as the order ids have not wrapped. -/
theorem Inv.move (h : d.Inv) {d' : Desk} (hmove : Move k d d') (hids : d'.nextOrderId ≤ 2 ^ 64) :
    d'.Inv := by
  cases hmove with
  | @told a hk hentry rs =>
    refine h.of_same rfl le_rfl rfl (update_isSome d k _) fun j b hb => ?_
    obtain ⟨b₀, hb₀, rfl⟩ := update_account_some hb
    refine ⟨b₀, hb₀, ?_, ?_⟩ <;> split <;> rfl
  | enters m hm => exact h.enters hm hids
  | synthetic howner hidnew hfits hcall =>
    rw [synthetic_nextOrderId] at hids
    exact h.synthetic howner (hidnew.trans (Nat.mod_eq_of_lt hids)) hcall
  | syntheticCancel locate id newQty why => exact h.cancel newQty why fun hc => absurd rfl hc
  | @cancelled ref newQty a hd why hk hh =>
    exact h.cancel newQty why fun _ => ⟨ref, (h.table_iff hk ref hd).mp hh⟩
  | closed hk hlive hnodup => exact (h.closed hk hlive hnodup).1

/-- Only accepting a connection takes a session id. -/
theorem Move.nextSessionId {d' : Desk} (hmove : Move k d d') :
    d'.nextSessionId = d.nextSessionId := by
  cases hmove with
  | told => rfl
  | enters m hm =>
    cases hm with
    | rejected => rfl
    | refused => rfl
    | submitted hk hentry hnew hreq hcall hd' hgone =>
      have hid := congrArg Desk.nextSessionId hd'
      rw [Desk.submit] at hid
      split <;> exact hid.trans (foldl_hear_frame _ _).2.1
  | synthetic => exact (foldl_hear_frame _ _).2.1
  | syntheticCancel => exact (foldl_hear_frame _ _).2.1
  | cancelled => exact (foldl_hear_frame _ _).2.1
  | closed => exact cancelAll_nextSessionId _ _ _

/-- A connection takes one session id, which wraps. -/
theorem Opens.nextSessionId {d' : Desk} (hopens : Opens d d') :
    d'.nextSessionId = (d.nextSessionId + 1) % 2 ^ 32 := by
  cases hopens <;> rfl

/-- Cancelling uses no order id. -/
theorem cancelAll_nextOrderId (d : Desk) (k : ℕ) (live : List (ℕ × OrderHandle)) :
    (d.cancelAll k live).nextOrderId = d.nextOrderId := by
  induction live generalizing d with
  | nil => rfl
  | cons p live ih => exact (ih _).trans (foldl_hear_frame _ _).1

/-- No move gives an order id back. -/
theorem Move.nextOrderId_le {d' : Desk} (hmove : Move k d d') : d.nextOrderId ≤ d'.nextOrderId := by
  cases hmove with
  | told => exact le_rfl
  | enters m hm =>
    cases hm with
    | rejected => exact le_rfl
    | refused => exact Nat.le_add_right _ _
    | submitted hk hentry hnew hreq hcall hd' hgone =>
      rw [entered_nextOrderId hd']
      exact Nat.le_succ _
  | @synthetic locate req =>
    rw [synthetic_nextOrderId]
    exact Nat.le_succ _
  | syntheticCancel => exact (foldl_hear_frame _ _).1.ge
  | cancelled => exact (foldl_hear_frame _ _).1.ge
  | closed => exact (cancelAll_nextOrderId _ _ _).ge

/-- A connection uses no order id. -/
theorem Opens.nextOrderId {d' : Desk} (hopens : Opens d d') : d'.nextOrderId = d.nextOrderId := by
  cases hopens <;> rfl

end Desk

end PulseForge
