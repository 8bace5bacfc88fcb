import PulseForge.Interface.EventFlow
import PulseForge.Model.Exchange

/-!
# The order desk

What the exchange does for its clients, without sockets, buffers or clocks. Each open session
has an account: its table of resting orders by `user_ref`, and the reports it was sent. The
desk opens and closes accounts, enters and cancels orders, and hears every engine event.

`Desk.Move` has one rule per thing that can happen. What holds of the exchange over whole
runs is proved from these rules.
-/

set_option autoImplicit false

namespace PulseForge

/-! ## The events of one call -/

/-- The events of one call of the engine lead from `x` to `y`. Between two of them an order
is being matched. -/
inductive Flow.Steps : Flow → List Event → Flow → Prop
  | nil (x : Flow) : Steps x [] x
  | cons {x y z : Flow} {ev : Event} {evs : List Event} (hstep : x.Step ev y)
      (hwf : y.engine.WF) (hbusy : y.taker = none → evs = [])
      (htail : Steps y evs z) : Steps x (ev :: evs) z

/-! ## Reports -/

/-- What a report says about an order of its session. -/
inductive Report where
  | accepted (userRef qty : ℕ)
  | executed (userRef qty matchNumber : ℕ)
  | canceled (userRef qty : ℕ)
  | rejected (userRef : ℕ)
deriving Repr, DecidableEq

/-- What an OUCH message says. -/
def Ouch.Outbound.digest : Ouch.Outbound → Report
  | .accepted _ userRef _ qty _ _ _ _ _ _ => .accepted userRef.toNat qty.toNat
  | .executed _ userRef qty _ _ matchNumber =>
    .executed userRef.toNat qty.toNat matchNumber.toNat
  | .canceled _ userRef qty _ => .canceled userRef.toNat qty.toNat
  | .rejected _ userRef _ _ => .rejected userRef.toNat

/-- The request that an order message becomes. -/
def Ouch.EnterOrder.request (m : Ouch.EnterOrder) (owner id : ℕ) : OrderRequest :=
  { id := id
    side := m.side
    price := m.price.toInt
    qty := m.qty.toNat
    tif := m.tif
    owner := owner
    userRef := m.userRef.toNat }

/-- The OUCH messages queued for a session, as its client decodes them. -/
def Session.ouch (s : Session) : List Ouch.Outbound :=
  s.queued.filterMap fun f =>
    if f.type = Soup.kSequencedData then Ouch.decodeOutbound f.payload else none

/-- The reports an event sends to the session `k`; the fields have the widths of the
messages. -/
def Event.reportsTo (k : ℕ) : Event → List Report
  | .accepted _ req =>
    if req.owner = k then [.accepted (req.userRef % 2 ^ 32) (req.qty % 2 ^ 32)] else []
  | .rejected _ req _ => if req.owner = k then [.rejected (req.userRef % 2 ^ 32)] else []
  | .fill _ f =>
    (if f.makerOwner = k then
      [.executed (f.makerUserRef % 2 ^ 32) (f.qty % 2 ^ 32) (f.matchNumber % 2 ^ 64)] else []) ++
    (if f.takerOwner = k then
      [.executed (f.takerUserRef % 2 ^ 32) (f.qty % 2 ^ 32) (f.matchNumber % 2 ^ 64)] else [])
  | .rested _ _ => []
  | .restingCancelled _ before cancelled _ =>
    if before.owner = k then [.canceled (before.userRef % 2 ^ 32) (cancelled % 2 ^ 32)] else []
  | .takerCancelled _ req cancelled _ =>
    if req.owner = k then [.canceled (req.userRef % 2 ^ 32) (cancelled % 2 ^ 32)] else []

/-- The resting order of the session `k` that an event takes out of the book. -/
def Event.gone (k : ℕ) : Event → Option ℕ
  | .fill _ f => if f.makerOwner = k ∧ f.makerRemaining = 0 then some f.makerUserRef else none
  | .restingCancelled _ before cancelled _ =>
    if before.owner = k ∧ cancelled = before.qty then some before.userRef else none
  | .accepted .. | .rejected .. | .rested .. | .takerCancelled .. => none

/-! ## Accounts -/

structure Account where
  orderEntry : Bool
  lastUserRef : ℕ
  table : ℕ → Option OrderHandle
  reports : List Report

namespace Account

def report (a : Account) (rs : List Report) : Account := { a with reports := a.reports ++ rs }

def set (a : Account) (ref : ℕ) (h : Option OrderHandle) : Account :=
  { a with table := fun r => if r = ref then h else a.table r }

/-- One event, as the session `k` sees it. -/
def hear (k : ℕ) (a : Account) (ev : Event) : Account :=
  let a := a.report (ev.reportsTo k)
  match ev.gone k with
  | none => a
  | some ref => a.set ref none

end Account

structure Desk where
  engine : RefEngine
  account : ℕ → Option Account
  nextOrderId : ℕ
  nextSessionId : ℕ
  log : List Event
  answers : List (ℕ × CancelResult)

namespace Desk

/-- Change one account. -/
def update (d : Desk) (k : ℕ) (f : Account → Account) : Desk :=
  { d with account := fun j => if j = k then (d.account j).map f else d.account j }

/-- One event. -/
def hear (d : Desk) (ev : Event) : Desk :=
  { d with log := d.log ++ [ev], account := fun k => (d.account k).map fun a => a.hear k ev }

/-- A submit, with its events. -/
def submit (d : Desk) (locate : ℕ) (req : OrderRequest) : Desk :=
  let (r, evs) := d.engine.submit locate req
  { evs.foldl hear d with engine := r }

/-- A cancel, with its event and its answer. -/
def cancel (d : Desk) (locate id newQty owner : ℕ) (why : CancelReason) : Desk :=
  let (r, answer, evs) := d.engine.cancel locate id newQty owner why
  let d := evs.foldl hear d
  { d with engine := r, answers := d.answers ++ [(owner, answer)] }

/-- Cancel orders of the session `k`, one after the other. -/
def cancelAll (d : Desk) (k : ℕ) (live : List (ℕ × OrderHandle)) : Desk :=
  live.foldl (fun d p => d.cancel p.2.locate p.2.id 0 k .supervisory) d

/-- Forget an account. -/
def drop (d : Desk) (k : ℕ) : Desk :=
  { d with account := fun j => if j = k then none else d.account j }

/-- An order rests. -/
def Rests (r : RefEngine) (k ref : ℕ) (h : OrderHandle) : Prop :=
  ∃ m, r.market? h.locate = some m ∧
    ∃ o ∈ m.orders, o.owner = k ∧ o.userRef = ref ∧ o.id = h.id

/-- The call can be made: its events follow the protocol. -/
structure Submits (r : RefEngine) (locate : ℕ) (req : OrderRequest) : Prop where
  steps : Flow.Steps ⟨r, none⟩ (r.submit locate req).2 ⟨(r.submit locate req).1, none⟩
  nonempty : (r.submit locate req).2 ≠ []
  during : ∀ ev ∈ (r.submit locate req).2, ev.During locate req

/-- The session `k` asks for an order. -/
inductive Enters (k : ℕ) (m : Ouch.EnterOrder) : Desk → Desk → Prop
  /-- Its reference is old. -/
  | rejected {d : Desk} {a : Account} (hk : d.account k = some a)
      (hold : m.userRef.toNat ≤ a.lastUserRef) :
      Enters k m d (d.update k fun a => a.report [.rejected m.userRef.toNat])
  /-- Its reference is new, and it is rejected before it reaches the engine; an order id may
  have been used up. -/
  | refused {d : Desk} {a : Account} {used : ℕ} (hk : d.account k = some a)
      (hnew : a.lastUserRef < m.userRef.toNat) (hused : used ≤ 1) :
      Enters k m d { d.update k fun a =>
          { a with lastUserRef := m.userRef.toNat }.report [.rejected m.userRef.toNat] with
        nextOrderId := d.nextOrderId + used }
  /-- It is submitted. Its handle is written before the call and dropped after it unless the
  order rests. -/
  | submitted {d d' : Desk} {a : Account} {locate : ℕ} {req : OrderRequest}
      (hk : d.account k = some a) (hentry : a.orderEntry = true)
      (hnew : a.lastUserRef < m.userRef.toNat)
      (hreq : req = m.request k (d.nextOrderId % 2 ^ 64))
      (hcall : Submits d.engine locate req)
      (hd' : d' = ({ d.update k fun a =>
          { a with lastUserRef := req.userRef }.set req.userRef (some ⟨locate, req.id⟩) with
        nextOrderId := d.nextOrderId + 1 } : Desk).submit locate req)
      {gone : Prop} [Decidable gone] (hgone : gone ↔ ∀ m, d'.engine.market? locate = some m →
        m.find req.id = none) :
      Enters k m d (if gone then d'.update k fun a => a.set req.userRef none else d')

/-- A connection is accepted. -/
inductive Opens : Desk → Desk → Prop
  | opened {d : Desk} (orderEntry : Bool) (hfree : d.account d.nextSessionId = none) :
      Opens d { d with
        account := fun j => if j = d.nextSessionId then some ⟨orderEntry, 0, fun _ => none, []⟩
          else d.account j
        nextSessionId := (d.nextSessionId + 1) % 2 ^ 32 }
  /-- The id is taken, and the connection dropped. -/
  | dropped {d : Desk} (htaken : d.account d.nextSessionId ≠ none) :
      Opens d { d with nextSessionId := (d.nextSessionId + 1) % 2 ^ 32 }

/-- Another thing that happens at the desk. What a session does, the session `k` does. -/
inductive Move (k : ℕ) : Desk → Desk → Prop
  /-- A session that enters no orders is sent anything. -/
  | told {d : Desk} {a : Account} (hk : d.account k = some a) (hentry : a.orderEntry = false)
      (rs : List Report) : Move k d (d.update k fun a => a.report rs)
  | enters {d d' : Desk} (m : Ouch.EnterOrder) (h : Enters k m d d') : Move k d d'
  /-- An order of the synthetic flow is entered. -/
  | synthetic {d : Desk} {locate : ℕ} {req : OrderRequest} (howner : req.owner = 0)
      (hid : req.id = d.nextOrderId % 2 ^ 64) (hfits : req.qty < 2 ^ 32)
      (hcall : Submits d.engine locate req) :
      Move k d (({ d with nextOrderId := d.nextOrderId + 1 } : Desk).submit locate req)
  /-- An order of the synthetic flow is cancelled. -/
  | syntheticCancel {d : Desk} (locate id newQty : ℕ) (why : CancelReason) :
      Move k d (d.cancel locate id newQty 0 why)
  /-- A session cancels an order of its table. -/
  | cancelled {d : Desk} {ref newQty : ℕ} {a : Account} {h : OrderHandle} (why : CancelReason)
      (hk : d.account k = some a) (hh : a.table ref = some h) :
      Move k d (d.cancel h.locate h.id newQty k why)
  /-- A session is closed: the orders of its table are cancelled, then it goes. -/
  | closed {d : Desk} {a : Account} {live : List (ℕ × OrderHandle)}
      (hk : d.account k = some a) (hlive : ∀ p, p ∈ live ↔ a.table p.1 = some p.2)
      (hnodup : (live.map Prod.fst).Nodup) : Move k d ((d.cancelAll k live).drop k)

end Desk

/-! ## The desk of an exchange -/

/-- The account of a session. -/
def Session.account (s : Session) : Account :=
  ⟨s.kind = .orderEntry, s.lastUserRef, s.orders.find, s.ouch.map Ouch.Outbound.digest⟩

end PulseForge
