import PulseForge.Analysis.EnteringOrders

/-!
# The reports of a session account for its shares

A client knows of its orders what it is told. In every run, what an open session was sent
accepts each reference once and before anything else is said of it, and the shares accepted are
those executed, those cancelled and those that rest in the books. Nothing is said twice: the
reports are those of the events of the whole run, in their order.
-/

set_option autoImplicit false

namespace PulseForge

namespace Desk

variable {x y : Flow} {d d' : Desk} {k n locate : ℕ} {a : Account} {req : OrderRequest}

/-- **The accounts of the desk**, when `n` connections were accepted. -/
structure Accounts (n : ℕ) (x : Flow) (d : Desk) : Prop where
  balanced : ∀ k a, d.account k = some a → a.orderEntry = true → Balanced x k a
  told : ∀ k a, d.account k = some a → a.orderEntry = true →
    a.reports.filter Report.isAnswer =
      (d.log.flatMap (Event.reportsTo k)).filter Report.isAnswer
  opened : ∀ k, (d.account k).isSome → k ≤ n
  unheard : ∀ k, n < k → d.log.flatMap (Event.reportsTo k) = []

/-! ## One event -/

/-- Who hears of an event has an order that rests, or the order that is entered. -/
theorem reportsTo_owner {ev : Event} (hstep : x.Step ev y) (hk : ev.reportsTo k ≠ []) :
    (∃ ref h, Rests x.engine k ref h) ∨
      (∃ l req remaining, x.taker = some (l, req, remaining) ∧ req.owner = k) ∨
      ∃ l req, (ev = .accepted l req ∨ ∃ why, ev = .rejected l req why) ∧ req.owner = k := by
  have hreport : ∀ {c : Prop} [Decidable c] {rep : Report},
      (if c then [rep] else []) ≠ [] → c := by
    intro c _ rep hne
    by_contra hc
    exact hne (if_neg hc)
  cases hstep with
  | rejected hwhy => exact .inr (.inr ⟨_, _, .inr ⟨_, rfl⟩, hreport hk⟩)
  | accepted hok => exact .inr (.inr ⟨_, _, .inl rfl, hreport hk⟩)
  | @fill r l m req remaining maker rest hmarket hfront hremaining hcross hother =>
    have ho : maker ∈ m.orders := (Market.mem_orders_iff m).mpr ⟨_, by rw [hfront]; simp⟩
    by_cases hown : maker.owner = k
    · exact .inl ⟨maker.userRef, ⟨l, maker.id⟩, m, hmarket, maker, ho, hown, rfl, rfl⟩
    by_cases htaker : req.owner = k
    · exact .inr (.inl ⟨l, req, remaining, rfl, htaker⟩)
    · exact absurd (by simp [Event.reportsTo, MatchingEngine.makeFill, hown, htaker]) hk
  | @selfMatch r l m req remaining maker rest hmarket hfront hremaining hown hstp =>
    have ho : maker ∈ m.orders := (Market.mem_orders_iff m).mpr ⟨_, by rw [hfront]; simp⟩
    exact .inl ⟨maker.userRef, ⟨l, maker.id⟩, m, hmarket, maker, ho, hreport hk, rfl, rfl⟩
  | @takerCancelled r l req remaining why hremaining =>
    exact .inr (.inl ⟨l, req, remaining, rfl, hreport hk⟩)
  | rested => exact absurd rfl hk
  | @cancelled r l m o shares why hmarket hfind hpos hle =>
    have ho : o ∈ m.orders := List.mem_of_find?_eq_some hfind
    exact .inl ⟨o.userRef, ⟨l, o.id⟩, m, hmarket, o, ho, hreport hk, rfl, rfl⟩

/-- **One event** keeps the accounts. -/
theorem Accounts.hear (h : d.Accounts n x) (hzero : d.account 0 = none)
    {pending : ℕ → ℕ → OrderHandle → Prop} (ht : TablesHold x.engine d.account pending)
    (hfresh : ∀ k ref hd, pending k ref hd → ∀ k' ref', ¬ Rests x.engine k' ref' hd)
    (ho : OwnersOpen x.engine d.account) (hx : x.engine.WF) (hy : y.engine.WF) {ev : Event}
    (hstep : x.Step ev y)
    (haccepts : ∀ l req, ev = .accepted l req → ∀ a, d.account req.owner = some a → Fits a req)
    (hrests : ∀ l o, ev = .rested l o → ∀ k ref, (d.account k).isSome →
      (pending k ref ⟨l, o.id⟩ ↔ o.owner = k ∧ o.userRef = ref))
    (htaker : ∀ l req remaining, x.taker = some (l, req, remaining) → req.owner ≠ 0 →
      (d.account req.owner).isSome)
    (hentered : ∀ l req, (ev = .accepted l req ∨ ∃ why, ev = .rejected l req why) →
      req.owner ≠ 0 → (d.account req.owner).isSome) :
    (d.hear ev).Accounts n y := by
  have hlog : ∀ k, (d.hear ev).log.flatMap (Event.reportsTo k) =
      d.log.flatMap (Event.reportsTo k) ++ ev.reportsTo k := by
    intro k
    simp [Desk.hear]
  refine ⟨fun k a ha hentry => ?_, fun k a ha hentry => ?_, fun k hk => ?_, fun k hk => ?_⟩
  · obtain ⟨a₀, ha₀, rfl⟩ := hear_account_some ha
    rw [Account.hear_orderEntry] at hentry
    have hk0 : k ≠ 0 := by
      rintro rfl
      exact absurd (hzero.symm.trans ha₀) (by simp)
    refine (h.balanced k a₀ ha₀ hentry).hear hk0
      ⟨fun ref hd => ht k a₀ ha₀ ref hd, fun ref hd => hfresh k ref hd⟩ hx hy hstep ?_ ?_
    · rintro l req rfl rfl
      exact haccepts l req rfl a₀ ha₀
    · intro l o hev ref
      exact hrests l o hev k ref (by rw [ha₀]; rfl)
  · obtain ⟨a₀, ha₀, rfl⟩ := hear_account_some ha
    rw [Account.hear_orderEntry] at hentry
    rw [hear_reports, hlog, List.filter_append, List.filter_append, h.told k a₀ ha₀ hentry]
  · rw [hear_isSome] at hk
    exact h.opened k hk
  · rw [hlog, h.unheard k hk, List.nil_append]
    by_contra hne
    have hk0 : k ≠ 0 := by omega
    have hsome : (d.account k).isSome := by
      rcases reportsTo_owner hstep hne with
        ⟨ref, hd, hr⟩ | ⟨l, req, remaining, htk, rfl⟩ | ⟨l, req, hev, rfl⟩
      · exact ho k ref hd hr hk0
      · exact htaker l req remaining htk hk0
      · exact hentered l req hev hk0
    have hle := h.opened k hsome
    omega

/-! ## A submit -/

/-- What holds of the accounts before a submit and while its order is being matched. -/
structure Submitting (n locate : ℕ) (req : OrderRequest) (x : Flow) (d : Desk) : Prop where
  entering : Entering locate req x d
  accounts : d.Accounts n x
  zero : d.account 0 = none
  id_lt : req.id < d.nextOrderId
  owner : req.owner ≠ 0 → (d.account req.owner).isSome
  taker : ∀ l req' remaining, x.taker = some (l, req', remaining) → req' = req
  fits : x.taker = none → ∀ a, d.account req.owner = some a → Fits a req

/-- One event of a submit. -/
theorem Submitting.step (h : Submitting n locate req x d) (hx : x.engine.WF) (hy : y.engine.WF)
    {ev : Event} (hstep : x.Step ev y) (hduring : ev.During locate req) :
    (y.taker ≠ none → Submitting n locate req y (d.hear ev)) ∧ (d.hear ev).Accounts n y := by
  have haccounts : (d.hear ev).Accounts n y := by
    refine h.accounts.hear h.zero h.entering.tables ?_ h.entering.owners hx hy hstep ?_ ?_ ?_ ?_
    · rintro k ref hd ⟨rfl, rfl, rfl⟩ k' ref'
      exact h.entering.fresh k' ref'
    · rintro l req' rfl a ha
      obtain ⟨rfl, rfl⟩ := hduring
      cases hstep
      exact h.fits rfl a ha
    · rintro l o rfl k ref hopen
      obtain ⟨rfl, q, rfl⟩ := hduring
      simp only [entryOf, OrderRequest.resting, and_true, eq_comm]
    · intro l req' remaining htk hne
      rw [h.taker l req' remaining htk] at hne ⊢
      exact h.owner hne
    · rintro l req' (rfl | ⟨why, rfl⟩) hne
      · obtain ⟨rfl, rfl⟩ := hduring
        exact h.owner hne
      · obtain ⟨rfl, rfl⟩ := hduring
        exact h.owner hne
  refine ⟨fun hbusy => ?_, haccounts⟩
  have hent := (h.entering.step hx hstep hduring h.id_lt h.owner).1 hbusy
  refine ⟨hent, haccounts, ?_, h.id_lt, ?_, ?_, fun hidle => absurd hidle hbusy⟩
  · simp [Desk.hear, h.zero]
  · rw [hear_isSome]
    exact h.owner
  · -- only accepting an order changes which one is being matched
    intro l req' remaining htk
    cases hstep with
    | rejected | takerCancelled | rested | cancelled => cases htk
    | accepted hok =>
      obtain ⟨rfl, rfl⟩ := hduring
      cases htk
      rfl
    | @fill r l' m req₀ remaining₀ maker rest =>
      have hsame : req' = req₀ := by
        unfold Flow.taking at htk
        split_ifs at htk
        cases htk
        rfl
      rw [hsame]
      exact h.taker l' req₀ remaining₀ rfl
    | selfMatch => exact h.taker l req' remaining htk

/-- **A submit** keeps the accounts. -/
theorem Submitting.submit (h : Submitting n locate req ⟨d.engine, none⟩ d) (hwf : d.engine.WF)
    (hcall : Submits d.engine locate req) :
    (d.submit locate req).Accounts n ⟨(d.submit locate req).engine, none⟩ := by
  have hfold := hcall.steps.fold (f := Desk.hear) (R := Submitting n locate req)
    (Q := fun y d => d.Accounts n y) (s := d)
    (fun x ev y d hev hx hy hstep hd => by
      obtain ⟨hmid, hend⟩ := hd.step hx hy hstep (hcall.during ev hev)
      exact ⟨hmid, fun _ => hend⟩)
    hcall.nonempty rfl hwf h
  exact ⟨hfold.balanced, hfold.told, hfold.opened, hfold.unheard⟩

/-! ## Accounts that are told something -/

/-- The accounts do not depend on the engine but through what rests under the tables. -/
theorem Accounts.of_accounts (h : d.Accounts n x) (hlog : d'.log = d.log)
    (hacc : ∀ k a', d'.account k = some a' → ∃ a, d.account k = some a ∧
      a'.orderEntry = a.orderEntry ∧ (a.orderEntry = true →
        (Balanced x k a → Balanced y k a') ∧ ∃ rs, a'.reports = a.reports ++ rs ∧
          ∀ r ∈ rs, r.isAnswer = false)) : d'.Accounts n y := by
  refine ⟨fun k a' ha' hentry => ?_, fun k a' ha' hentry => ?_, fun k hk => ?_, fun k hk => ?_⟩
  · obtain ⟨a, ha, hsame, hmore⟩ := hacc k a' ha'
    rw [hsame] at hentry
    exact (hmore hentry).1 (h.balanced k a ha hentry)
  · obtain ⟨a, ha, hsame, hmore⟩ := hacc k a' ha'
    rw [hsame] at hentry
    obtain ⟨-, rs, hreports, hrs⟩ := hmore hentry
    have hnone : rs.filter Report.isAnswer = [] :=
      List.filter_eq_nil_iff.mpr fun r hr => by simp [hrs r hr]
    rw [hreports, List.filter_append, hnone, List.append_nil, hlog]
    exact h.told k a ha hentry
  · obtain ⟨a', ha'⟩ := Option.isSome_iff_exists.mp hk
    obtain ⟨a, ha, -⟩ := hacc k a' ha'
    exact h.opened k (by rw [ha]; rfl)
  · rw [hlog]
    exact h.unheard k hk

/-- One account hears of no event: `f` may add rejections and raise the last reference. -/
theorem Accounts.update (h : d.Accounts n x) {f : Account → Account}
    (hf : ∀ a, d.account k = some a → (f a).orderEntry = a.orderEntry ∧ (a.orderEntry = true →
      (Balanced x k a → Balanced x k (f a)) ∧ ∃ rs, (f a).reports = a.reports ++ rs ∧
        ∀ r ∈ rs, r.isAnswer = false)) : (d.update k f).Accounts n x := by
  refine h.of_accounts rfl fun j a' ha' => ?_
  obtain ⟨a, ha, rfl⟩ := update_account_some ha'
  refine ⟨a, ha, ?_⟩
  by_cases hj : j = k
  · subst hj
    rw [if_pos rfl]
    exact hf a ha
  · rw [if_neg hj]
    exact ⟨rfl, fun _ => ⟨id, [], (List.append_nil _).symm, by simp⟩⟩

/-- What is open depends on the table. -/
theorem sharesOf_congr {a a' : Account} (h : ∀ ref, a'.table ref = a.table ref) (ref : ℕ) :
    x.sharesOf k a' ref = x.sharesOf k a ref := by
  rw [Flow.sharesOf, Flow.sharesOf, Account.restingQty, Account.restingQty, h]

/-- A session is told that a request was rejected. -/
theorem Accounts.reject (h : d.Accounts n x) (ref : ℕ) {f : Account → Account}
    (hentry : ∀ a, (f a).orderEntry = a.orderEntry) (htable : ∀ a, (f a).table = a.table)
    (hreports : ∀ a, (f a).reports = a.reports ++ [.rejected ref])
    (hlast : ∀ a, d.account k = some a → a.lastUserRef ≤ (f a).lastUserRef ∧
      (a.lastUserRef < 2 ^ 32 → (f a).lastUserRef < 2 ^ 32)) : (d.update k f).Accounts n x := by
  have hrs : ∀ r ∈ [Report.rejected ref], r.isAnswer = false := by simp [Report.isAnswer]
  refine h.update fun a ha => ⟨hentry a, fun _ => ⟨fun hb => ?_, _, hreports a, hrs⟩⟩
  obtain ⟨hle, hlt⟩ := hlast a ha
  exact hb.silent _ (hreports a) hrs hle (hlt hb.last) fun ref =>
    sharesOf_congr (fun ref => congrFun (htable a) ref) ref

/-! ## A session enters an order -/

/-- The entry that the table got for the order rests nowhere yet. -/
theorem Accounts.pend (h : d.Accounts n ⟨d.engine, none⟩) (hinv : d.Inv)
    (hk : d.account k = some a) (hid : req.id = d.nextOrderId)
    (hnew : a.lastUserRef < req.userRef) (href : req.userRef < 2 ^ 32) :
    (d.pend k locate req).Accounts n ⟨d.engine, none⟩ := by
  have hpend : ∀ ref, Account.restingQty d.engine
      ({ a with lastUserRef := req.userRef }.set req.userRef (some ⟨locate, req.id⟩)) ref =
        a.restingQty d.engine ref := by
    intro ref
    simp only [Account.restingQty, Account.set]
    by_cases hr : ref = req.userRef
    · rw [if_pos hr, hr]
      have hnone : a.table req.userRef = none := by
        cases ht : a.table req.userRef with
        | none => rfl
        | some hd =>
          have hle := hinv.refs k a hk req.userRef hd ht
          omega
      rw [hnone]
      exact restingQty_of_not_rests (fun j ref => hinv.fresh hid j ref)
    · rw [if_neg hr]
  refine Accounts.of_accounts (d := d) h rfl fun j a' ha' => ?_
  obtain ⟨a₀, ha₀, rfl⟩ := pend_account_some ha'
  refine ⟨a₀, ha₀, ?_⟩
  by_cases hj : j = k
  · subst hj
    obtain rfl := Option.some.inj (hk.symm.trans ha₀)
    rw [if_pos rfl]
    refine ⟨rfl, fun _ => ⟨fun hb => ?_, [], (List.append_nil _).symm, by simp⟩⟩
    refine hb.silent [] (List.append_nil _).symm (by simp) hnew.le href fun ref => ?_
    rw [Flow.sharesOf, Flow.sharesOf, hpend]
  · rw [if_neg hj]
    exact ⟨rfl, fun _ => ⟨id, [], (List.append_nil _).symm, by simp⟩⟩

/-- **Entering an order** keeps the accounts. -/
theorem Accounts.entered (h : d.Accounts n ⟨d.engine, none⟩) (hinv : d.Inv)
    (hk : d.account k = some a) (hentry : a.orderEntry = true) (howner : req.owner = k)
    (hid : req.id = d.nextOrderId) (hnew : a.lastUserRef < req.userRef)
    (href : req.userRef < 2 ^ 32) (hqty : req.qty < 2 ^ 32)
    (hcall : Submits d.engine locate req) {d' : Desk}
    (hd' : d' = (d.pend k locate req).submit locate req) {gone : Prop} [Decidable gone]
    (hgone : gone ↔ ∀ m, d'.engine.market? locate = some m → m.find req.id = none) :
    (if gone then d'.update k fun a => a.set req.userRef none else d').Accounts n
      ⟨d'.engine, none⟩ := by
  have hbal := h.balanced k a hk hentry
  have hsubmit : Submitting n locate req ⟨d.engine, none⟩ (d.pend k locate req) := by
    refine ⟨hinv.pend_entering hk howner hid hnew, h.pend hinv hk hid hnew href, ?_, ?_, ?_, ?_, ?_⟩
    · rw [← Option.not_isSome_iff_eq_none, pend_isSome, hinv.noZero]
      simp
    · rw [hid]
      exact Nat.lt_succ_self _
    · rw [pend_isSome, howner, hk]
      exact fun _ => rfl
    · intro l req' remaining htk
      cases htk
    · intro _ a' ha'
      rw [howner] at ha'
      obtain ⟨a₀, ha₀, rfl⟩ := pend_account_some ha'
      obtain rfl := Option.some.inj (hk.symm.trans ha₀)
      rw [if_pos rfl]
      refine ⟨fun hmem => ?_, le_rfl, hqty⟩
      have hle := hbal.refs req.userRef hmem
      omega
  have hwf' := (submit_frame (d := d.pend k locate req) hinv.wf hsubmit.zero
    (hinv.pend_refs hk hnew) hcall).1
  have hacc := Submitting.submit (d := d.pend k locate req) hsubmit hinv.wf hcall
  have hout := Entering.submit (d := d.pend k locate req) hsubmit.entering hinv.wf hcall
    hsubmit.id_lt hsubmit.owner
  rw [← hd'] at hacc hwf' hout
  split
  · next hg =>
    refine hacc.update fun a' ha' => ⟨rfl, fun hentry' => ⟨fun hb => ?_, [],
      (List.append_nil _).symm, by simp⟩⟩
    refine hb.silent [] (List.append_nil _).symm (by simp) le_rfl hb.last fun ref => ?_
    -- the entry that is dropped is that of an order that does not rest
    have hentry₀ := (hout.tables k a' ha' req.userRef ⟨locate, req.id⟩).mpr
      (.inr ⟨howner.symm, rfl, rfl⟩)
    have hnone : d'.engine.restingQty locate req.id = 0 := by
      refine restingQty_of_not_rests (h := ⟨locate, req.id⟩) fun j ref' hrests => ?_
      exact (not_gone_iff hwf' req.id).mpr ⟨j, ref', hrests⟩ (hgone.mp hg)
    simp only [Flow.sharesOf, Account.restingQty, Account.set]
    by_cases hr : ref = req.userRef
    · simp only [hr, if_true, hentry₀, hnone]
    · rw [if_neg hr]
  · exact hacc

/-- What a session asks for. -/
theorem Accounts.enters (h : d.Accounts n ⟨d.engine, none⟩) (hinv : d.Inv) {m : Ouch.EnterOrder}
    (hm : Enters k m d d') (hids : d'.nextOrderId ≤ 2 ^ 64) : d'.Accounts n ⟨d'.engine, none⟩ := by
  cases hm with
  | rejected hk hold =>
    refine Accounts.reject (d := d) h m.userRef.toNat (fun _ => rfl) (fun _ => rfl) (fun _ => rfl)
      fun a _ => ⟨le_rfl, id⟩
  | @refused a used hk hnew hused =>
    have hacc : (d.update k fun a =>
        { a with lastUserRef := m.userRef.toNat }.report
          [.rejected m.userRef.toNat]).Accounts n ⟨d.engine, none⟩ := by
      refine h.reject m.userRef.toNat (fun _ => rfl) (fun _ => rfl) (fun _ => rfl) fun a' ha' => ?_
      obtain rfl := Option.some.inj (hk.symm.trans ha')
      exact ⟨hnew.le, fun _ => m.userRef.toNat_lt⟩
    exact ⟨hacc.balanced, hacc.told, hacc.opened, hacc.unheard⟩
  | @submitted d' a locate req hk hentry hnew hreq hcall hd' gone _ hgone =>
    subst hreq
    rw [entered_nextOrderId hd'] at hids
    have hacc := h.entered hinv hk hentry rfl (Nat.mod_eq_of_lt hids) hnew m.userRef.toNat_lt
      m.qty.toNat_lt hcall hd' hgone
    by_cases hg : gone
    · rw [if_pos hg] at hacc ⊢
      exact hacc
    · rw [if_neg hg] at hacc ⊢
      exact hacc

/-! ## The other moves -/

/-- A cancel, if it is for an order of its owner. -/
theorem Accounts.cancel (h : d.Accounts n ⟨d.engine, none⟩) (hinv : d.Inv) (l id newQty owner : ℕ)
    (why : CancelReason) :
    (d.cancel l id newQty owner why).Accounts n
      ⟨(d.cancel l id newQty owner why).engine, none⟩ := by
  unfold Desk.cancel
  rcases cancel_cases hinv.wf l id newQty owner why with
    ⟨answer, hcan, -⟩ | ⟨m, o, hm, hfind, rfl, hqty, hcan⟩
  · rw [hcan]
    exact ⟨h.balanced, h.told, h.opened, h.unheard⟩
  · rw [hcan]
    have hstep := cancel_step hinv.wf hm hfind hqty why
    have ho := ((hinv.wf.market hm).find_eq_some_iff.mp hfind).1
    have hwf' := hinv.wf.setMarket ((hinv.wf.market hm).take ho (Nat.sub_le _ newQty)) l
    have hacc := h.hear hinv.noZero hinv.tables (fun _ _ _ hp => hp.elim) hinv.owners hinv.wf hwf'
      hstep (fun _ _ hc => by cases hc) (fun _ _ hc => by cases hc) (fun _ _ _ hc => by cases hc)
      (fun _ _ hc => by rcases hc with hc | ⟨_, hc⟩ <;> cases hc)
    exact ⟨hacc.balanced, hacc.told, hacc.opened, hacc.unheard⟩

/-- Cancelling orders of a table, one after the other. -/
theorem Accounts.cancelAll {live : List (ℕ × OrderHandle)} (h : d.Accounts n ⟨d.engine, none⟩)
    (hinv : d.Inv) (hk : d.account k = some a) (hlive : ∀ p ∈ live, a.table p.1 = some p.2)
    (hnodup : (live.map Prod.fst).Nodup) :
    (d.cancelAll k live).Accounts n ⟨(d.cancelAll k live).engine, none⟩ := by
  induction live generalizing d a with
  | nil => exact h
  | cons p live ih =>
    rw [List.map_cons, List.nodup_cons] at hnodup
    have hp := hlive p List.mem_cons_self
    obtain ⟨a₁, hk₁, -, -, htab₁⟩ := hinv.cancel_table hk hp .supervisory
    have hinv₁ : (d.cancel p.2.locate p.2.id 0 k .supervisory).Inv := hinv.cancel 0 .supervisory
      fun _ => ⟨p.1, (hinv.table_iff hk p.1 p.2).mp hp⟩
    refine ih (h.cancel hinv _ _ 0 k .supervisory) hinv₁ hk₁ (fun p' hp' => ?_) hnodup.2
    have hne : p'.1 ≠ p.1 := fun hc => hnodup.1 (hc ▸ List.mem_map_of_mem hp')
    rw [htab₁, if_neg hne]
    exact hlive p' (List.mem_cons_of_mem _ hp')

/-- Forgetting an account. -/
theorem Accounts.drop (h : d.Accounts n x) (k : ℕ) : (d.drop k).Accounts n x := by
  refine h.of_accounts rfl fun j a' ha' => ?_
  simp only [Desk.drop] at ha'
  split_ifs at ha'
  exact ⟨a', ha', rfl, fun _ => ⟨id, [], (List.append_nil _).symm, by simp⟩⟩

/-- An order of the synthetic flow. -/
theorem Accounts.synthetic (h : d.Accounts n ⟨d.engine, none⟩) (hinv : d.Inv)
    (howner : req.owner = 0) (hid : req.id = d.nextOrderId) (hcall : Submits d.engine locate req) :
    (({ d with nextOrderId := d.nextOrderId + 1 } : Desk).submit locate req).Accounts n
      ⟨(({ d with nextOrderId := d.nextOrderId + 1 } : Desk).submit locate req).engine, none⟩ := by
  set d₁ : Desk := { d with nextOrderId := d.nextOrderId + 1 } with hd₁
  have hentering : Entering locate req ⟨d₁.engine, none⟩ d₁ := by
    refine ⟨fun j a ha ref hd => ?_, hinv.owners, hinv.fresh hid,
      fun j ref hd hrests => Nat.lt_succ_of_lt (hinv.ids j ref hd hrests)⟩
    have hno : ¬ entryOf locate req j ref hd := by
      rintro ⟨rfl, -, -⟩
      rw [show d₁.account = d.account from rfl, howner, hinv.noZero] at ha
      exact absurd ha (by simp)
    rw [hinv.table_iff ha]
    simp [hno, hd₁]
  refine Submitting.submit (d := d₁) ⟨hentering, ⟨h.balanced, h.told, h.opened, h.unheard⟩,
    hinv.noZero, ?_, fun hc => absurd howner hc, fun l req' remaining htk => ?_, fun _ a ha => ?_⟩
    hinv.wf hcall
  · rw [hid]
    exact Nat.lt_succ_self _
  · cases htk
  · rw [howner, show d₁.account = d.account from rfl, hinv.noZero] at ha
    exact absurd ha (by simp)

/-- **Every move keeps the accounts**, as long as the order ids have not wrapped. -/
theorem Accounts.move (h : d.Accounts n ⟨d.engine, none⟩) (hinv : d.Inv) (hmove : Move k d d')
    (hids : d'.nextOrderId ≤ 2 ^ 64) : d'.Accounts n ⟨d'.engine, none⟩ := by
  cases hmove with
  | @told a hk hentry rs =>
    refine Accounts.update (d := d) h fun a' ha' => ⟨rfl, fun hc => ?_⟩
    obtain rfl := Option.some.inj (hk.symm.trans ha')
    exact absurd (hentry.symm.trans hc) (by simp)
  | enters m hm => exact h.enters hinv hm hids
  | synthetic howner hid hfits hcall =>
    rw [synthetic_nextOrderId] at hids
    exact h.synthetic hinv howner (hid.trans (Nat.mod_eq_of_lt hids)) hcall
  | syntheticCancel locate id newQty why => exact h.cancel hinv locate id newQty 0 why
  | cancelled why hk hh => exact h.cancel hinv _ _ _ k why
  | closed hk hlive hnodup =>
    exact (h.cancelAll hinv hk (fun p hp => (hlive p).mp hp) hnodup).drop k

/-- **A new session** has an empty account, and the log does not know it. -/
theorem Accounts.opens (h : d.Accounts n ⟨d.engine, none⟩) (hid : d.nextSessionId = n + 1)
    (hopens : Opens d d') : d'.Accounts (n + 1) ⟨d'.engine, none⟩ := by
  cases hopens with
  | opened orderEntry hfree =>
    refine ⟨fun k a ha hentry => ?_, fun k a ha hentry => ?_, fun k hk => ?_, fun k hk => ?_⟩
    · simp only at ha
      split_ifs at ha with hk
      · obtain rfl := Option.some.inj ha
        refine ⟨fun ref => rfl, List.nodup_nil, fun ref => by simp [reportSum],
          by simp [acceptedRefs], fun pre r post hsplit => ?_, by norm_num⟩
        exact absurd hsplit (by simp)
      · have hb := h.balanced k a ha hentry
        exact ⟨hb.balance, hb.nodup, hb.small, hb.refs, hb.first, hb.last⟩
    · simp only at ha
      split_ifs at ha with hk
      · obtain rfl := Option.some.inj ha
        have hnone := h.unheard k (by omega)
        simp [hnone]
      · exact h.told k a ha hentry
    · simp only at hk
      split_ifs at hk with hj
      · omega
      · exact (h.opened k hk).trans (Nat.le_succ n)
    · exact h.unheard k (by omega)
  | dropped htaken =>
    exact ⟨h.balanced, h.told, fun k hk => (h.opened k hk).trans (Nat.le_succ n),
      fun k hk => h.unheard k (by omega)⟩

end Desk

namespace Exchange

/-! ## What a session was told -/

/-- What the messages queued for a session say, in their order. -/
def reports (s : Session) : List Report := s.ouch.map Ouch.Outbound.digest

/-- **The session `k` can account for its shares** from the messages it was sent. -/
structure Accounted (x : Exchange) (k : ℕ) (s : Session) : Prop where
  once : (acceptedRefs (reports s)).Nodup
  first : ∀ pre r post, reports s = pre ++ r :: post → ∀ ref, r.closedRef? = some ref →
    ref ∈ acceptedRefs pre
  resting : ∀ locate, x.engine.validLocate locate →
    ∀ o ∈ (x.engine.book locate).forEachOrder, o.owner = k →
      reportSum (Report.acceptedQty o.userRef) (reports s) =
        reportSum (Report.executedQty o.userRef) (reports s) +
          reportSum (Report.canceledQty o.userRef) (reports s) + o.qty
  gone : ∀ ref, (∀ h, ¬ Resting x.engine k ref h) →
    reportSum (Report.acceptedQty ref) (reports s) =
      reportSum (Report.executedQty ref) (reports s) +
        reportSum (Report.canceledQty ref) (reports s)
  heard : (reports s).filter Report.isAnswer =
    (x.log.flatMap (Event.reportsTo k)).filter Report.isAnswer

/-- The accounts of the desk are those of the sessions. -/
theorem accounted {x : Exchange} {n k : ℕ} {s : Session} (hx : x.Sound) (hinv : x.desk.Inv)
    (h : x.desk.Accounts n ⟨x.desk.engine, none⟩) (hs : x.session? k = some s)
    (hkind : s.kind = .orderEntry) : Accounted x k s := by
  have hacc : x.desk.account k = some s.account := account_eq hs
  have hentry : s.account.orderEntry = true := decide_eq_true hkind
  have hb := h.balanced k s.account hacc hentry
  have hopen : ∀ ref, Flow.sharesOf ⟨x.desk.engine, none⟩ k s.account ref =
      s.account.restingQty x.desk.engine ref := fun _ => rfl
  refine ⟨hb.nodup, hb.first, fun locate hv o ho hown => ?_, fun ref hno => ?_,
    h.told k s.account hacc hentry⟩
  · have hrests : Desk.Rests x.desk.engine k o.userRef ⟨locate, o.id⟩ :=
      (rests_abs k o.userRef ⟨locate, o.id⟩).mpr ⟨hv, o, ho, hown, rfl, rfl⟩
    have htable := (hinv.table_iff hacc o.userRef ⟨locate, o.id⟩).mpr hrests
    have hm : x.engine.abs.market? locate = some (x.engine.book locate).market := by
      rw [MatchingEngine.market?_abs, if_pos hv]
    have ho' : o ∈ (x.engine.book locate).market.orders := by
      rw [OrderBook.market_orders]
      exact ho
    have hqty : s.account.restingQty x.desk.engine o.userRef = o.qty := by
      rw [Account.restingQty, htable]
      exact RefEngine.restingQty_of_mem hx.engine.abs hm ho'
    have hbal := hb.balance o.userRef
    rw [hopen, hqty] at hbal
    exact hbal
  · have hnone : s.account.table ref = none := by
      cases ht : s.account.table ref with
      | none => rfl
      | some hd =>
        exact absurd ((rests_abs k ref hd).mp ((hinv.table_iff hacc ref hd).mp ht)) (hno hd)
    have hbal := hb.balance ref
    rw [hopen, Account.restingQty, hnone] at hbal
    exact hbal

/-- **Private reports account for every share.** In every run that accepts fewer than 2³²
connections and uses fewer than 2⁶⁴ order ids, between any two actions of the event loop, what each
open order-entry session was sent accepts every reference once and first, balances the shares of
each of its orders with what rests in the books, and is what the engine's events have to say to it,
fill by fill with their match numbers. -/
theorem reports_account (cfg : Config) (clock : Clock) (actions : List Action)
    (hids : accepts actions < 2 ^ 32) (horders : (after cfg clock actions).nextOrderId ≤ 2 ^ 64)
    (k : ℕ) (s : Session) (hs : (after cfg clock actions).session? k = some s)
    (hkind : s.kind = .orderEntry) : Accounted (after cfg clock actions) k s := by
  obtain ⟨-, -, -, hnone, hlog⟩ := new_spec cfg clock
  have hstart : (new cfg clock).desk.Accounts 0 ⟨(new cfg clock).desk.engine, none⟩ := by
    refine ⟨fun k a ha => ?_, fun k a ha => ?_, fun k hk => ?_, fun k _ => by rw [hlog]; rfl⟩
    · exact absurd ((hnone k).symm.trans ha) (by simp)
    · exact absurd ((hnone k).symm.trans ha) (by simp)
    · rw [hnone] at hk
      exact absurd hk (by simp)
  obtain ⟨hx, hinv, hacc⟩ := run_induction (P := fun n d => d.Accounts n ⟨d.engine, none⟩) cfg
    clock hstart (fun n d d' _ h hid hop => h.opens hid hop)
    (fun n k d d' hinv h hle hmove => h.move hinv hmove hle) actions hids horders
  exact accounted hx hinv hacc hs hkind

/-- A bid through the first order of the synthetic flow. -/
def bid : Ouch.EnterOrder := ⟨1, .buy, 100, fun _ => 65, 1010000, .day, fun _ => 32⟩

def bidFrame : Soup.Frame :=
  ⟨Soup.kUnsequencedData, Ouch.encodeInbound (.enterOrder bid) Ouch.kMaxMessageLen⟩

/-- A client connects and logs in. -/
def clientLogin : List Action :=
  [.accept .orderEntry, .session 1 (some [.data (Soup.appendFrame [] loginFrame)]) none false]

/-- An order of the synthetic flow rests, and the client buys some of it. -/
def clientTrade : List Action :=
  clientLogin ++ [.synth 1] ++
    [.session 1 (some [.data (Soup.appendFrame [] bidFrame)]) none false]

/-- The client behind its login. -/
theorem clientLogin_session : ∃ s, (after oneSymbol steadyClock clientLogin).session? 1 = some s ∧
    s.kind = .orderEntry ∧ s.loggedIn = true ∧ s.reader = {} ∧ s.lastUserRef = 0 ∧
    s.orders.size = 0 ∧ 0 < s.orders.maxEntries ∧ s.account.reports = [] := by
  have hlogged : ((after oneSymbol steadyClock clientLogin).session? 1).map (fun s =>
      (s.kind, s.loggedIn, s.reader)) = some (.orderEntry, true, {}) := by
    decide +kernel
  have htable : ((after oneSymbol steadyClock clientLogin).session? 1).map (fun s =>
      (s.lastUserRef, s.orders.size, decide (0 < s.orders.maxEntries), s.account.reports)) =
        some (0, 0, true, []) := by
    decide +kernel
  obtain ⟨s, hs, hfields⟩ := Option.map_eq_some_iff.mp hlogged
  rw [hs, Option.map_some, Option.some.injEq] at htable
  simp only [Prod.mk.injEq, decide_eq_true_eq] at hfields htable
  exact ⟨s, hs, hfields.1, hfields.2.1, hfields.2.2, htable⟩

/-- The step of the flow leaves one ask in the books, and the sessions as they were. -/
theorem clientLogin_synth :
    Aside firstEvents (after oneSymbol steadyClock clientLogin)
        ((after oneSymbol steadyClock clientLogin).synthStep 1) ∧
      ((after oneSymbol steadyClock clientLogin).synthStep 1).engine.abs =
        ⟨.cancelResting, 1000000, [⟨{}, [], [⟨1, 1000100, 300, 0, 0, .sell⟩]⟩], [fun _ => 65], 1⟩ ∧
      ((after oneSymbol steadyClock clientLogin).synthStep 1).nextOrderId = 2 := by
  have huntraded : (after oneSymbol steadyClock clientLogin).Untraded :=
    ⟨by decide +kernel, by decide +kernel, by decide +kernel⟩
  have hsound := (sound_after oneSymbol steadyClock clientLogin (by decide)).1
  exact synthStep_oneSymbol hsound.engine huntraded

/-- **A client that is logged in buys** from the one ask: it is told of its order and of the fill. -/
theorem readSession_bid {x : Exchange} {s : Session} (hx : x.Sound) (hs : x.session? 1 = some s)
    (hkind : s.kind = .orderEntry) (hlogged : s.loggedIn = true) (hreader : s.reader = {})
    (hlast : s.lastUserRef = 0) (hsize : s.orders.size = 0) (hroom : 0 < s.orders.maxEntries)
    (hnone : s.account.reports = [])
    (hbook : x.engine.abs =
      ⟨.cancelResting, 1000000, [⟨{}, [], [⟨1, 1000100, 300, 0, 0, .sell⟩]⟩], [fun _ => 65], 1⟩)
    (hid : x.nextOrderId = 2) :
    ∃ s', (readSession 1 [.data (Soup.appendFrame [] bidFrame)] x).session? 1 = some s' ∧
      s'.kind = .orderEntry ∧ reports s' = [.accepted 1 100, .executed 1 100 1] := by
  have hlisted : x.engine.findSymbol bid.symbol = 1 := by
    have hsymbols : x.engine.symbols = [fun _ => 65] := congrArg RefEngine.symbols hbook
    rw [MatchingEngine.findSymbol, hsymbols]
    decide
  -- the frame comes in one piece, on an empty reader
  have hwhole : (s.reader.writePtr.commit (Soup.appendFrame [] bidFrame)).next =
      (.frame bidFrame, {}) := by
    rw [hreader]
    decide +kernel
  have hfits : (Soup.appendFrame [] bidFrame).length ≤ s.reader.writePtr.writeSpace := by
    rw [hreader]
    decide +kernel
  have hdecodes : Ouch.decodeInbound bidFrame.payload = some (.enterOrder bid) := by
    rw [bidFrame, Ouch.encodeInbound_eq (show 41 ≤ 58 by decide), Ouch.decodeInbound_layout]
  obtain ⟨y, s', hquiet, hys, hcurrent, hk, hlast', horders', hread⟩ :=
    readSession_enter hx hs hkind hlogged (by decide) hfits hwhole rfl rfl hdecodes
  have haccount : s'.account = s.account := by
    have hacc := hcurrent.account
    rw [hquiet.desk, hk, account_eq hs] at hacc
    exact (Option.some.inj hacc).symm
  have hids : y.nextOrderId = 2 := (congrArg Desk.nextOrderId hquiet.desk).trans hid
  obtain ⟨a, ha, hentry, hreports⟩ := handleEnter_told (m := bid) hys hcurrent
    (by rw [hlast', hlast]; decide) (by rw [hquiet.engine, hlisted]; decide)
    (by rw [horders', hsize]) (by rw [horders']; exact hroom)
  rw [hk, ← hread] at ha
  obtain ⟨s'', hs'', haccount''⟩ := Option.map_eq_some_iff.mp ha
  rw [hquiet.engine, hlisted, hbook, hids, hk, haccount, hnone] at hreports
  refine ⟨s'', hs'', ?_, ?_⟩
  · rw [haccount, ← haccount''] at hentry
    have hkind' : s.account.orderEntry = true := decide_eq_true hkind
    exact of_decide_eq_true (hentry.trans hkind')
  · rw [← haccount''] at hreports
    refine hreports.trans ?_
    decide +kernel

/-- **A client buys from the synthetic flow.** -/
theorem clientTrade_reports : ∃ s, (after oneSymbol steadyClock clientTrade).session? 1 = some s ∧
    s.kind = .orderEntry ∧ reports s = [.accepted 1 100, .executed 1 100 1] := by
  obtain ⟨s, hs, hkind, hlogged, hreader, hlast, hsize, hroom, hnone⟩ := clientLogin_session
  obtain ⟨haside, hbook, hid⟩ := clientLogin_synth
  have hvalid : (after oneSymbol steadyClock clientLogin).engine.validLocate 1 := by
    decide +kernel
  have hsynth : after oneSymbol steadyClock (clientLogin ++ [.synth 1]) =
      (after oneSymbol steadyClock clientLogin).synthStep 1 := by
    rw [after_append]
    exact step_synth hvalid
  have hsound := (sound_after oneSymbol steadyClock (clientLogin ++ [.synth 1]) (by decide)).1
  rw [clientTrade, after_append, step_read]
  rw [hsynth] at hsound ⊢
  have hs' : ((after oneSymbol steadyClock clientLogin).synthStep 1).session? 1 = some s := by
    rw [session?, haside.sessions]
    exact hs
  exact readSession_bid hsound hs' hkind hlogged hreader hlast hsize hroom hnone hbook hid

/-- What the client was told accounts for its shares. -/
theorem reports_account_one_client : accepts clientTrade < 2 ^ 32 ∧
    (after oneSymbol steadyClock clientTrade).nextOrderId ≤ 2 ^ 64 ∧
    ∃ s, (after oneSymbol steadyClock clientTrade).session? 1 = some s ∧ s.kind = .orderEntry ∧
      reports s = [.accepted 1 100, .executed 1 100 1] ∧
      Accounted (after oneSymbol steadyClock clientTrade) 1 s := by
  have hids : accepts clientTrade < 2 ^ 32 := by decide
  have hfew : (clientTrade.map Action.orderIds).sum < 2 ^ 18 := by
    simp [clientTrade, clientLogin, Action.orderIds, Soup.FrameReader.kBufSize]
  have hle := nextOrderId_after oneSymbol steadyClock clientTrade
  have horders : (after oneSymbol steadyClock clientTrade).nextOrderId ≤ 2 ^ 64 := by omega
  obtain ⟨s, hs, hkind, hreports⟩ := clientTrade_reports
  exact ⟨hids, horders, s, hs, hkind, hreports,
    reports_account oneSymbol steadyClock clientTrade hids horders 1 s hs hkind⟩

end Exchange

end PulseForge
