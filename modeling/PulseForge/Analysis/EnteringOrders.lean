import PulseForge.Analysis.AccountBalance
import PulseForge.Analysis.ClosingSessions

/-!
# One order over one connection

What a session is told when one order message arrives in one piece on a connection that is logged
in: the events of the matcher, on the books of the moment, in their order.
-/

set_option autoImplicit false

namespace PulseForge

open Foundation

namespace Exchange

variable {x : Exchange} {s : Session} {k : ℕ}

/-! ## Reading one frame -/

/-- Bytes arrive, and nothing else happens. -/
theorem step_read (x : Exchange) (k : ℕ) (recvs : List Recv) :
    x.step (.session k (some recvs) none false) = readSession k recvs x := rfl

/-- Nothing more to read: the desk stays. -/
theorem readSession_nil (k : ℕ) (x : Exchange) : Quiet x (readSession k [] x) := by
  rw [readSession]
  split
  · exact .refl x
  · next s _ =>
    have hroom : Quiet x (x.modify k fun s' => { s' with reader := s.reader.writePtr }) :=
      quiet_modify (fun _ => rfl) (fun _ => rfl) fun _ => rfl
    dsimp only
    split
    · exact hroom.trans (quiet_modify (fun _ => rfl) (fun _ => rfl) fun _ => rfl)
    · exact hroom

/-- Nothing is handled when the reader has no whole frame. -/
theorem drainFrames_of_needMore {fuel : ℕ}
    (h : ∀ s, x.session? k = some s → s.reader.next.1 = .needMore) :
    (drainFrames k fuel x).1 = x := by
  cases fuel with
  | zero => rfl
  | succ fuel =>
    unfold drainFrames
    cases hs : x.session? k with
    | none => rfl
    | some s =>
      have hnext := h s hs
      dsimp only
      split
      · rfl
      · next hfail =>
        rw [hfail] at hnext
        cases hnext
      · next f reader hframe =>
        rw [hframe] at hnext
        cases hnext

/-- **One whole frame** and nothing behind it: it is handled, and that is all. -/
theorem drainFrames_one {t : Session} {len : ℕ} (hlen : len ≠ 0) (ht : x.session? k = some t)
    {f : Soup.Frame} {reader : Soup.FrameReader} (hnext : t.reader.next = (.frame f, reader))
    (hmore : ∀ u, ((x.takes k f reader).handleFrame t f).session? k = some u →
      u.reader.next.1 = .needMore) :
    (drainFrames k len x).1 = (x.takes k f reader).handleFrame t f := by
  obtain ⟨fuel, rfl⟩ := Nat.exists_eq_succ_of_ne_zero hlen
  rw [drainFrames, ht]
  dsimp only
  rw [hnext]
  dsimp only
  rw [← takes]
  split
  · rfl
  · exact drainFrames_of_needMore hmore

/-- The exchange behind the bytes that `recv` gave, before their frames are handled. -/
def receives (x : Exchange) (k : ℕ) (s : Session) (bs : Bytes) : Exchange :=
  (x.modify k fun t => { t with reader := s.reader.writePtr }).tick.modify k fun t =>
    { t with reader := s.reader.writePtr.commit bs, lastRxNs := x.nowNs }

/-- Bytes that arrive are not on the desk. -/
theorem quiet_receives (x : Exchange) (k : ℕ) (s : Session) (bs : Bytes) :
    Quiet x (x.receives k s bs) := by
  have hwrites : Quiet x (x.modify k fun t => { t with reader := s.reader.writePtr }) :=
    quiet_modify (fun _ => rfl) (fun _ => rfl) fun _ => rfl
  apply hwrites.trans
  apply (quiet_tick _).trans
  exact quiet_modify (fun _ => rfl) (fun _ => rfl) fun _ => rfl

/-- The session has the bytes. -/
theorem receives_session? (hs : x.session? k = some s) (bs : Bytes) :
    (x.receives k s bs).session? k = some { s with
      reader := s.reader.writePtr.commit bs
      lastRxNs := x.nowNs } := by
  have hwrites := @session?_modify_self x k (fun t =>
    { t with reader := s.reader.writePtr }) fun _ => rfl
  rw [hs] at hwrites
  have hreads := @session?_modify_self
    (x.modify k fun t => { t with reader := s.reader.writePtr }).tick k (fun t =>
      { t with reader := s.reader.writePtr.commit bs, lastRxNs := x.nowNs }) fun _ => rfl
  refine hreads.trans ?_
  rw [show (x.modify k fun t => { t with reader := s.reader.writePtr }).tick.session? k = _
    from hwrites]
  rfl

/-- **One piece of bytes**: what is left of reading it is the desk behind its frames. -/
theorem readSession_piece (hs : x.session? k = some s) {bs : Bytes} (hne : bs ≠ [])
    (hroom : bs.length ≤ s.reader.writePtr.writeSpace) :
    (readSession k [.data bs] x).desk =
      (drainFrames k (s.reader.writePtr.commit bs).data.length (x.receives k s bs)).1.desk := by
  have hspace : s.reader.writePtr.writeSpace ≠ 0 := by
    have hpos := List.length_pos_of_ne_nil hne
    omega
  rw [readSession, hs]
  dsimp only
  rw [if_neg hspace]
  obtain ⟨b, bs, rfl⟩ := List.exists_cons_of_ne_nil hne
  dsimp only
  rw [List.take_of_length_le hroom]
  split
  · next v hv =>
    rw [(readSession_nil k v).desk]
    exact (congrArg (fun p : Exchange × Bool => p.1.desk) hv).symm
  · next v hv => exact (congrArg (fun p : Exchange × Bool => p.1.desk) hv).symm

/-- **One order in one piece**: the desk is the one behind `handle_enter`. -/
theorem readSession_enter (hx : x.Sound) (hs : x.session? k = some s)
    (hkind : s.kind = .orderEntry) (hlogged : s.loggedIn = true) {bs : Bytes} (hne : bs ≠ [])
    (hroom : bs.length ≤ s.reader.writePtr.writeSpace) {f : Soup.Frame} {reader : Soup.FrameReader}
    (hnext : (s.reader.writePtr.commit bs).next = (.frame f, reader))
    (hdone : reader.next.1 = .needMore) (htype : f.type = Soup.kUnsequencedData)
    {m : Ouch.EnterOrder} (hm : Ouch.decodeInbound f.payload = some (.enterOrder m)) :
    ∃ y s', Quiet x y ∧ y.Sound ∧ y.Current s' ∧ s'.id = k ∧ s'.lastUserRef = s.lastUserRef ∧
      s'.orders = s.orders ∧ (readSession k [.data bs] x).desk = (y.handleEnter s' m).desk := by
  obtain rfl : s.id = k := session?_id hs
  set z := x.receives s.id s bs with hz
  set s' : Session := { s with
    reader := s.reader.writePtr.commit bs
    lastRxNs := x.nowNs } with hs'
  have hquiet : Quiet x z := quiet_receives x s.id s bs
  have hfound : z.session? s.id = some s' := receives_session? hs bs
  have hsound : z.Sound := (hquiet.follows (k := s.id) hx).sound
  obtain ⟨htakes, hcurrent⟩ := takes_sound (s := s') hsound hfound f reader
  set y : Exchange := z.takes s.id f reader with hy
  have htaken : Quiet z y := quiet_modify (fun _ => rfl) (fun _ => rfl) fun _ => rfl
  refine ⟨y, s', hquiet.trans htaken, htakes, hcurrent, rfl, rfl, rfl, ?_⟩
  have henter : y.handleFrame s' f = y.handleEnter s' m := by
    rw [handleFrame, show s'.kind = .orderEntry from hkind, htype]
    simp [show s'.loggedIn = true from hlogged, hm, Soup.kUnsequencedData, Soup.kLoginRequest]
  -- the order leaves the reader of its session as it finds it
  have hmore : ∀ t, (y.handleFrame s' f).session? s.id = some t → t.reader.next.1 = .needMore := by
    intro t ht
    rw [henter] at ht
    have hrel := (tells_handleEnter y s' m).each s.id
    rw [ht, hy, takes_session?, if_pos rfl, hfound] at hrel
    cases hrel with
    | some htold =>
      rw [htold.reader]
      exact hdone
  have hlen : (s.reader.writePtr.commit bs).data.length ≠ 0 := by
    have hpos := List.length_pos_of_ne_nil hne
    show (s.reader.writePtr.data ++ bs).length ≠ 0
    rw [List.length_append]
    omega
  rw [readSession_piece hs hne hroom, drainFrames_one hlen hfound hnext hmore, ← hy, henter]

/-! ## What the session is told -/

/-- The reports of a session behind some events. -/
theorem foldl_hear_account (k : ℕ) (evs : List Event) (d : Desk) {a : Account}
    (ha : d.account k = some a) : ∃ a', (evs.foldl Desk.hear d).account k = some a' ∧
      a'.orderEntry = a.orderEntry ∧
      a'.reports = a.reports ++ evs.flatMap (Event.reportsTo k) := by
  induction evs generalizing d a with
  | nil => exact ⟨a, ha, rfl, (List.append_nil _).symm⟩
  | cons ev evs ih =>
    have hhear : (d.hear ev).account k = some (a.hear k ev) := by
      show (d.account k).map (fun a => a.hear k ev) = _
      rw [ha]
      rfl
    obtain ⟨a', ha', hentry, hreports⟩ := ih (d.hear ev) hhear
    refine ⟨a', ha', hentry.trans (Desk.Account.hear_orderEntry _ _ _), ?_⟩
    rw [hreports, Desk.hear_reports, List.flatMap_cons, List.append_assoc]

/-- **What the session hears of its first order**: the events of the matcher on the books of the
moment. -/
theorem handleEnter_told (hx : x.Sound) (hs : x.Current s) {m : Ouch.EnterOrder}
    (hnew : s.lastUserRef < m.userRef.toNat) (hlocate : x.engine.findSymbol m.symbol ≠ 0)
    (hempty : s.orders.size = 0) (hroom : 0 < s.orders.maxEntries) :
    ∃ a, (x.handleEnter s m).desk.account s.id = some a ∧
      a.orderEntry = s.account.orderEntry ∧
      a.reports = s.account.reports ++ (x.engine.abs.submit (x.engine.findSymbol m.symbol)
        (m.request s.id (x.nextOrderId % 2 ^ 64))).2.flatMap (Event.reportsTo s.id) := by
  have horders : s.orders.WF := by
    obtain ⟨reader, taken, hs⟩ := hs
    exact hx.tables s.id { s with reader := reader, taken := taken } hs
  have hkey : m.userRef.toNat ≠ FlatIdMap.kEmpty := (Nat.zero_le _).trans_lt hnew |>.ne'
  obtain ⟨orders, hins, -⟩ := FlatIdMap.insert_of_new horders
    ⟨x.engine.findSymbol m.symbol, x.nextOrderId % 2 ^ 64⟩ hkey (hempty ▸ hroom)
    (FlatIdMap.find_of_size_eq_zero horders hempty _)
  obtain ⟨hys, hdesk⟩ := writeHandle_desk hx hs hins
  obtain ⟨hsubs, hsubmit, -⟩ :=
    submit_desk hys (x.engine.findSymbol m.symbol) (m.request s.id (x.nextOrderId % 2 ^ 64))
  have hwritten : (x.writeHandle s m orders).desk.account s.id = some
      ({ s.account with lastUserRef := m.userRef.toNat }.set m.userRef.toNat
        (some ⟨x.engine.findSymbol m.symbol, x.nextOrderId % 2 ^ 64⟩)) := by
    rw [hdesk]
    show (if s.id = s.id then (x.desk.account s.id).map _ else _) = _
    rw [if_pos rfl, hs.account]
    rfl
  obtain ⟨a, ha, hentry, hreports⟩ := foldl_hear_account s.id (x.engine.abs.submit
    (x.engine.findSymbol m.symbol) (m.request s.id (x.nextOrderId % 2 ^ 64))).2 _ hwritten
  obtain ⟨y, hy⟩ : ∃ y, y = (x.writeHandle s m orders).submit (x.engine.findSymbol m.symbol)
    (m.request s.id (x.nextOrderId % 2 ^ 64)) := ⟨_, rfl⟩
  rw [← hy] at hsubs hsubmit
  have hya : y.desk.account s.id = some a := by
    rw [hsubmit]
    exact ha
  rw [handleEnter_submits hnew hlocate hins hy]
  split
  · have her := erase_changes hsubs.tables s.id m.userRef.toNat
    refine ⟨a.set m.userRef.toNat none, ?_, hentry, hreports⟩
    rw [her.desk]
    show (if s.id = s.id then (y.desk.account s.id).map _ else _) = _
    rw [if_pos rfl, hya]
    rfl
  · exact ⟨a, hya, hentry, hreports⟩

end Exchange

end PulseForge
