import PulseForge.Analysis.SessionLife

/-!
# Orders of a session that is closing

`handle_frame` lets an order through when the session is logged in. It does not look at
`close_after_flush`, which a Logout Request and a refused login set; the session is only closed
when its output is sent, and the frames behind the logout are handled until then. A run in which
none of them is an order is proper.
-/

set_option autoImplicit false

namespace PulseForge

/-! ## One session -/

/-- A frame of the type is among them. -/
def Soup.Has (type : UInt8) (fs : List Soup.Frame) : Prop := ∃ f ∈ fs, f.type = type

namespace Soup

variable {type : UInt8} {fs gs : List Frame}

/-- A type occurs in two lists when it occurs in one. -/
theorem has_append : Has type (fs ++ gs) ↔ Has type fs ∨ Has type gs := by
  simp [Has, or_and_right, exists_or]

theorem has_singleton {f : Frame} : Has type [f] ↔ f.type = type := by
  simp [Has]

/-- Frames of another type. -/
theorem has_append_of_ne (h : ∀ f ∈ gs, f.type ≠ type) : Has type (fs ++ gs) ↔ Has type fs := by
  rw [has_append, or_iff_left]
  rintro ⟨f, hf, htype⟩
  exact h f hf htype

end Soup

namespace Session

open Soup (Has)

variable {s s' : Session}

/-- **The flags of a session tell its history**: what was answered to it, and whether it sent a
Logout Request. -/
structure Life (s : Session) : Prop where
  loggedIn : s.loggedIn = true → Has Soup.kLoginAccepted s.queued
  closing : s.closeAfterFlush = true ↔
    Has Soup.kLogoutRequest s.taken ∨ Has Soup.kLoginRejected s.queued
  ended : Has Soup.kEndOfSession s.queued → Has Soup.kLogoutRequest s.taken

/-- The same flags, frames of other types in the queue. -/
theorem Life.append (h : s.Life) {fs : List Soup.Frame} (hlogged : s'.loggedIn = s.loggedIn)
    (hclose : s'.closeAfterFlush = s.closeAfterFlush) (htaken : s'.taken = s.taken)
    (hqueued : s'.queued = s.queued ++ fs)
    (htype : ∀ f ∈ fs, f.type ≠ Soup.kLoginRejected ∧ f.type ≠ Soup.kEndOfSession) : s'.Life := by
  refine ⟨fun hl => ?_, ?_, fun hend => ?_⟩
  · rw [hqueued, Soup.has_append]
    exact .inl (h.loggedIn (hlogged ▸ hl))
  · rw [hclose, htaken, hqueued, Soup.has_append_of_ne fun f hf => (htype f hf).1]
    exact h.closing
  · rw [hqueued, Soup.has_append_of_ne fun f hf => (htype f hf).2] at hend
    rw [htaken]
    exact h.ended hend

/-- The fields that tell the history. -/
theorem Life.of_eq (h : s.Life) (hlogged : s'.loggedIn = s.loggedIn)
    (hclose : s'.closeAfterFlush = s.closeAfterFlush) (htaken : s'.taken = s.taken)
    (hqueued : s'.queued = s.queued) : s'.Life :=
  @Life.append _ _ h [] hlogged hclose htaken (by simp [hqueued])
    fun _ hf => absurd hf List.not_mem_nil

/-- Being told something keeps the flags true. -/
theorem Life.told (h : s.Life) (ht : Told s s') : s'.Life := by
  obtain ⟨fs, htype, hqueued, -⟩ := ht.queued
  refine h.append ht.loggedIn ht.closeAfterFlush ht.taken hqueued fun f hf => ?_
  rw [htype f hf]
  decide

/-- A frame that is no Logout Request is taken. -/
theorem Life.take (h : s.Life) {f : Soup.Frame} (hf : f.type ≠ Soup.kLogoutRequest)
    (reader : Soup.FrameReader) :
    Life { s with reader := reader, taken := s.taken ++ [f] } := by
  have htaken : Has Soup.kLogoutRequest (s.taken ++ [f]) ↔ Has Soup.kLogoutRequest s.taken :=
    Soup.has_append_of_ne fun g hg => by rwa [List.mem_singleton.mp hg]
  refine ⟨h.loggedIn, ?_, fun hend => htaken.mpr (h.ended hend)⟩
  change s.closeAfterFlush = true ↔
    Has Soup.kLogoutRequest (s.taken ++ [f]) ∨ Has Soup.kLoginRejected s.queued
  rw [htaken]
  exact h.closing

/-- What `flush_session` does not touch. -/
structure SameLife (s s' : Session) : Prop where
  id : s'.id = s.id
  kind : s'.kind = s.kind
  loggedIn : s'.loggedIn = s.loggedIn
  closeAfterFlush : s'.closeAfterFlush = s.closeAfterFlush
  taken : s'.taken = s.taken
  queued : s'.queued = s.queued

/-- `flush_session` does not touch the flags. -/
theorem sameLife_flush (now : ℕ) (s : Session) (sends : List Send) :
    SameLife s (s.flush now sends) := by
  induction sends generalizing s with
  | nil =>
    rw [Session.flush]
    split <;> exact ⟨rfl, rfl, rfl, rfl, rfl, rfl⟩
  | cons answer sends ih =>
    cases answer with
    | again =>
      rw [Session.flush]
      split <;> exact ⟨rfl, rfl, rfl, rfl, rfl, rfl⟩
    | interrupted =>
      rw [Session.flush]
      split
      · exact ih s
      · exact ⟨rfl, rfl, rfl, rfl, rfl, rfl⟩
    | failed =>
      rw [Session.flush]
      split <;> exact ⟨rfl, rfl, rfl, rfl, rfl, rfl⟩
    | accepted n =>
      rw [Session.flush]
      split
      · have hrest := ih
          { s with
            outOff := s.outOff + min (max n 1) (s.out.length - s.outOff)
            sent := s.sent ++ (s.out.drop s.outOff).take (min (max n 1) (s.out.length - s.outOff)) }
        exact ⟨hrest.id, hrest.kind, hrest.loggedIn, hrest.closeAfterFlush, hrest.taken,
          hrest.queued⟩
      · exact ⟨rfl, rfl, rfl, rfl, rfl, rfl⟩

end Session

/-! ## All sessions -/

namespace Exchange

open Soup (Has)

variable {x y : Exchange}

/-- Every order-entry session has flags that tell its history. -/
def Lives (x : Exchange) : Prop :=
  ∀ k s, x.session? k = some s → s.kind = .orderEntry → s.Life

/-- Telling sessions something keeps their flags true. -/
theorem Lives.tells (h : x.Lives) (ht : Tells x y) : y.Lives := by
  intro k s hs hkind
  have hrel := ht.each k
  rw [hs] at hrel
  generalize hold : x.session? k = old at hrel
  cases hrel with
  | some htold => exact (h k _ hold (htold.kind.symm.trans hkind)).told htold

/-- One session changes. -/
theorem Lives.change (h : x.Lives) {id : ℕ} {f : Session → Session}
    (hy : ∀ k, y.session? k = if k = id then (x.session? k).map f else x.session? k)
    (hf : ∀ s, x.session? id = some s → (f s).kind = .orderEntry → (f s).Life) : y.Lives := by
  intro k s hs hkind
  rw [hy] at hs
  split_ifs at hs with hk
  · subst hk
    obtain ⟨s₀, hs₀, rfl⟩ := Option.map_eq_some_iff.mp hs
    exact hf s₀ hs₀ hkind
  · exact h k s hs hkind

/-- So does a change of other fields. -/
theorem Lives.same (h : x.Lives) {id : ℕ} {f : Session → Session}
    (hf : ∀ s, Session.SameLife s (f s)) : (x.modify id f).Lives := by
  refine h.change (fun k => session?_modify (fun s => (hf s).id) k) fun s hs hkind => ?_
  exact (h id s hs ((hf s).kind.symm.trans hkind)).of_eq (hf s).loggedIn (hf s).closeAfterFlush
    (hf s).taken (hf s).queued

/-- A session takes a frame from its reader. -/
theorem takes_session? (x : Exchange) (id : ℕ) (f : Soup.Frame) (reader : Soup.FrameReader)
    (k : ℕ) :
    (x.takes id f reader).session? k = if k = id then
      (x.session? k).map fun s => { s with reader := reader, taken := s.taken ++ [f] }
    else x.session? k :=
  @session?_modify x id (fun s => { s with reader := reader, taken := s.taken ++ [f] })
    (fun _ => rfl) k

/-- A frame that is no Logout Request keeps the flags true. -/
theorem Lives.takes (h : x.Lives) {id : ℕ} {s : Session} {f : Soup.Frame}
    (hs : x.session? id = some s) (hf : s.kind = .orderEntry → f.type ≠ Soup.kLogoutRequest)
    (reader : Soup.FrameReader) : (x.takes id f reader).Lives := by
  refine h.change (takes_session? x id f reader) fun s' hs' hkind => ?_
  obtain rfl : s = s' := Option.some.inj (hs.symm.trans hs')
  exact (h id s hs hkind).take (hf hkind) reader

/-- A heartbeat keeps the flags true. -/
theorem Lives.beats (h : x.Lives) (id : ℕ) :
    (x.queueFrame id ⟨Soup.kServerHeartbeat, []⟩).Lives := by
  refine h.change (queueFrame_session? x id _) fun s hs hkind => ?_
  refine (h id s hs hkind).append rfl rfl rfl rfl fun f hf => ?_
  rw [List.mem_singleton.mp hf]
  decide

/-- **A frame** keeps the flags in step with the history. -/
theorem Lives.handled (h : x.Lives) {id : ℕ} {s : Session} {f : Soup.Frame}
    {reader : Soup.FrameReader} (hs : x.session? id = some s)
    (hy : Handled (x.takes id f reader) s f y) : y.Lives := by
  have hid : s.id = id := session?_id hs
  have hother : f.type ≠ Soup.kLogoutRequest → (x.takes id f reader).Lives :=
    fun hf => h.takes hs (fun _ => hf) reader
  cases hy with
  | order _ htype _ _ htells =>
    have hf : f.type ≠ Soup.kLogoutRequest := by rw [htype]; decide
    exact (hother hf).tells htells
  | ignored hkind => exact h.takes hs (fun hk => (hkind hk).2) reader
  | violated _ htype _ =>
    have hf : f.type ≠ Soup.kLogoutRequest := by rw [htype]; decide
    exact (hother hf).same fun _ => ⟨rfl, rfl, rfl, rfl, rfl, rfl⟩
  | refused _ htype =>
    have hf : f.type ≠ Soup.kLogoutRequest := by rw [htype]; decide
    refine (hother hf).change (queueLast_session? _ _ _) fun s' hs' hkind => ?_
    have hlife := hother hf _ s' hs' hkind
    refine ⟨fun hl => ?_, iff_of_true rfl (.inr ?_), fun hend => ?_⟩
    · exact Soup.has_append.mpr (.inl (hlife.loggedIn hl))
    · exact Soup.has_append.mpr (.inr (Soup.has_singleton.mpr rfl))
    · refine hlife.ended ((Soup.has_append_of_ne fun g hg => ?_).mp hend)
      rw [List.mem_singleton.mp hg]
      decide
  | login user p _ htype =>
    have hf : f.type ≠ Soup.kLogoutRequest := by rw [htype]; decide
    refine (hother hf).change (acceptLogin_session? _ _ user p) fun s' hs' hkind => ?_
    have hlife := hother hf _ s' hs' hkind
    have happ : ∀ {type : UInt8}, Soup.kLoginAccepted ≠ type →
        (Has type (s'.queued ++ [⟨Soup.kLoginAccepted, p⟩]) ↔ Has type s'.queued) :=
      fun hne => Soup.has_append_of_ne fun g hg => by rwa [List.mem_singleton.mp hg]
    refine ⟨fun _ => ?_, ?_, fun hend => hlife.ended ((happ (by decide)).mp hend)⟩
    · exact Soup.has_append.mpr (.inr (Soup.has_singleton.mpr rfl))
    · change s'.closeAfterFlush = true ↔ Has Soup.kLogoutRequest s'.taken ∨
        Has Soup.kLoginRejected (s'.queued ++ [⟨Soup.kLoginAccepted, p⟩])
      rw [happ (by decide)]
      exact hlife.closing
  | logout _ htype =>
    subst hid
    have hboth : ∀ k, ((x.takes s.id f reader).queueLast s.id ⟨Soup.kEndOfSession, []⟩).session? k =
        if k = s.id then (x.session? k).map fun s' =>
          { s'.queueFrame ⟨Soup.kEndOfSession, []⟩ with
            dirty := true, closeAfterFlush := true, reader := reader, taken := s'.taken ++ [f] }
        else x.session? k := by
      intro k
      rw [queueLast_session?, takes_session?]
      split
      · rw [Option.map_map]
        rfl
      · rfl
    refine h.change hboth fun s' hs' hkind => ?_
    have hlife := h _ s' hs' hkind
    have hlogout : Has Soup.kLogoutRequest (s'.taken ++ [f]) :=
      Soup.has_append.mpr (.inr (Soup.has_singleton.mpr htype))
    refine ⟨fun hl => ?_, iff_of_true rfl (.inl hlogout), fun _ => hlogout⟩
    exact Soup.has_append.mpr (.inl (hlife.loggedIn hl))
  | snapshot hkind htells =>
    have hlives := h.takes (f := f) hs (fun hk => (nomatch hkind.symm.trans hk)) reader
    have hlives' := hlives.tells htells
    refine hlives'.change (queueLast_session? _ _ _) fun s' hs' hkind' => ?_
    -- the session is a snapshot session still
    have hrel := htells.each s.id
    rw [takes_session?, if_pos hid, hid, hs, ← hid, hs'] at hrel
    cases hrel with
    | some htold => exact nomatch hkind.symm.trans (htold.kind.symm.trans hkind')

/-- Every move keeps the flags true. -/
theorem Lives.move (h : x.Lives) (hm : SessionMove x y) : y.Lives := by
  cases hm with
  | tells htells => exact h.tells htells
  | reads id reader now => exact h.same fun _ => ⟨rfl, rfl, rfl, rfl, rfl, rfl⟩
  | dies id => exact h.same fun _ => ⟨rfl, rfl, rfl, rfl, rfl, rfl⟩
  | handles hs => exact h.handled hs (handleFrame_handled _ _ _)
  | flushes id now sends =>
    refine h.same fun s => ?_
    split
    · exact ⟨rfl, rfl, rfl, rfl, rfl, rfl⟩
    · exact Session.sameLife_flush now s sends
  | flushesDirty sends =>
    have hfold : ∀ (ids : List ℕ) (y : Exchange), y.Lives →
        (ids.foldl (fun x id => x.tick.modify id fun s =>
          ({ s with dirty := false } : Session).flush x.nowNs (sends id)) y).Lives := by
      intro ids
      induction ids with
      | nil => exact fun _ hy => hy
      | cons id ids ih =>
        intro y hy
        refine ih _ (Lives.same (x := y.tick) hy fun s => ?_)
        have hflush := Session.sameLife_flush y.nowNs { s with dirty := false } (sends id)
        exact ⟨hflush.id, hflush.kind, hflush.loggedIn, hflush.closeAfterFlush, hflush.taken,
          hflush.queued⟩
    exact hfold x.dirty x h
  | beats id => exact h.beats id
  | drops id =>
    intro k s hs hkind
    rw [session?_filter] at hs
    split_ifs at hs
    exact h k s hs hkind
  | accepts kind =>
    intro k s hs hkind
    rcases accept_session? hs with hold | ⟨orders, rfl⟩
    · exact h k s hold hkind
    · have hnone : ∀ type, ¬ Has type [] := fun _ hc => absurd hc.choose_spec.1 List.not_mem_nil
      exact ⟨fun hl => (nomatch hl), iff_of_false (by simp) (not_or.mpr ⟨hnone _, hnone _⟩),
        fun hend => absurd hend (hnone _)⟩

/-! ## The frames of a run -/

/-- A call of `handle_frame`: the states before and behind it, and its arguments. -/
structure FrameCall where
  before : Exchange
  session : Session
  frame : Soup.Frame
  behind : Exchange

/-- The calls of the inner loop of `read_session`. -/
def drainCalls (id : ℕ) : ℕ → Exchange → List FrameCall
  | 0, _ => []
  | fuel + 1, x =>
    match x.session? id with
    | none => []
    | some s =>
      match s.reader.next with
      | (.needMore, _) => []
      | (.error, _) => []
      | (.frame f, reader) =>
        let y := (x.takes id f reader).handleFrame s f
        ⟨x, s, f, y⟩ ::
          if ((y.session? id).map Session.dead).getD true then [] else drainCalls id fuel y

/-- The calls of `read_session`. -/
def readCalls (id : ℕ) : List Recv → Exchange → List FrameCall
  | recvs, x =>
    match x.session? id with
    | none => []
    | some s =>
      let reader := s.reader.writePtr
      let x := x.modify id fun s => { s with reader := reader }
      if reader.writeSpace = 0 then []
      else match recvs with
        | [] => []
        | .interrupted :: recvs => readCalls id recvs x
        | .closed :: _ | .failed :: _ | .data [] :: _ => []
        | .data (b :: bs) :: recvs =>
          let chunk := (b :: bs).take reader.writeSpace
          let now := x.nowNs
          let x := x.tick.modify id fun s =>
            { s with reader := reader.commit chunk, lastRxNs := now }
          let fuel := (reader.commit chunk).data.length
          drainCalls id fuel x ++
            match drainFrames id fuel x with
            | (x, true) => readCalls id recvs x
            | (_, false) => []

def stepCalls (x : Exchange) : Action → List FrameCall
  | .session id (some recvs) _ _ => readCalls id recvs x
  | _ => []

def callsFrom : Exchange → List Action → List FrameCall
  | _, [] => []
  | x, a :: actions => x.stepCalls a ++ callsFrom (x.step a) actions

/-- **The calls of `handle_frame` in a run**, in order. -/
def calls (cfg : Config) (clock : Clock) (actions : List Action) : List FrameCall :=
  callsFrom (new cfg clock) actions

/-- A call from a state that the moves lead to. -/
structure FrameCall.From (x : Exchange) (c : FrameCall) : Prop where
  moves : SessionMoves x c.before
  session : c.before.session? c.session.id = some c.session
  behind : ∃ reader, c.behind =
    (c.before.takes c.session.id c.frame reader).handleFrame c.session c.frame

theorem FrameCall.From.trans {c : FrameCall} (h : SessionMoves x y) (hc : c.From y) : c.From x :=
  ⟨h.trans hc.moves, hc.session, hc.behind⟩

/-- The calls of the inner loop are reached by moves. -/
theorem drainCalls_from (id fuel : ℕ) (x : Exchange) : ∀ c ∈ drainCalls id fuel x, c.From x := by
  induction fuel generalizing x with
  | zero => exact fun c hc => absurd hc List.not_mem_nil
  | succ fuel ih =>
    intro c hc
    rw [drainCalls] at hc
    cases hs : x.session? id with
    | none =>
      rw [hs] at hc
      exact absurd hc List.not_mem_nil
    | some s =>
      rw [hs] at hc
      dsimp only at hc
      have hid : s.id = id := session?_id hs
      split at hc
      · exact absurd hc List.not_mem_nil
      · exact absurd hc List.not_mem_nil
      · next f reader hnext =>
        rcases List.mem_cons.mp hc with rfl | hc
        · subst hid
          exact ⟨.refl x, hs, reader, rfl⟩
        · split at hc
          · exact absurd hc List.not_mem_nil
          · exact (ih _ c hc).trans (.single (.handles hs))

/-- The calls of one reading are reached by moves. -/
theorem readCalls_from (id : ℕ) (recvs : List Recv) (x : Exchange) :
    ∀ c ∈ readCalls id recvs x, c.From x := by
  induction recvs generalizing x with
  | nil =>
    intro c hc
    rw [readCalls] at hc
    split at hc
    · exact absurd hc List.not_mem_nil
    · dsimp only at hc
      split at hc <;> exact absurd hc List.not_mem_nil
  | cons r recvs ih =>
    intro c hc
    rw [readCalls] at hc
    split at hc
    · exact absurd hc List.not_mem_nil
    · next s hs =>
      dsimp only at hc
      have hroom : SessionMoves x (x.modify id fun s' => { s' with reader := s.reader.writePtr }) :=
        .single (.reads x id _ fun s => s.lastRxNs)
      split at hc
      · exact absurd hc List.not_mem_nil
      · cases r with
        | interrupted => exact (ih _ c hc).trans hroom
        | closed => exact absurd hc List.not_mem_nil
        | failed => exact absurd hc List.not_mem_nil
        | data bs =>
          cases bs with
          | nil => exact absurd hc List.not_mem_nil
          | cons b bs =>
            dsimp only at hc
            set y := x.modify id fun s' => { s' with reader := s.reader.writePtr } with hy
            set reader := s.reader.writePtr.commit ((b :: bs).take s.reader.writePtr.writeSpace)
              with hreader
            set z := y.tick.modify id fun s' =>
              { s' with reader := reader, lastRxNs := y.nowNs } with hz
            have hrecv : SessionMoves x z :=
              (hroom.trans (.tells (tells_tick y))).trans
                (.single (.reads _ id reader fun _ => y.nowNs))
            rcases List.mem_append.mp hc with hc | hc
            · exact (drainCalls_from id _ z c hc).trans hrecv
            · have hdrain := drainFrames_moves id reader.data.length z
              split at hc
              · next w hw =>
                rw [hw] at hdrain
                exact (ih _ c hc).trans (hrecv.trans hdrain)
              · exact absurd hc List.not_mem_nil

/-- The calls of a run are reached by moves. -/
theorem calls_from (cfg : Config) (clock : Clock) (actions : List Action) :
    ∀ c ∈ calls cfg clock actions, c.From (new cfg clock) := by
  have hfrom : ∀ (actions : List Action) (x : Exchange), ∀ c ∈ callsFrom x actions, c.From x := by
    intro actions
    induction actions with
    | nil => exact fun _ c hc => absurd hc List.not_mem_nil
    | cons a actions ih =>
      intro x c hc
      rcases List.mem_append.mp hc with hc | hc
      · unfold stepCalls at hc
        split at hc
        · exact readCalls_from _ _ _ c hc
        · exact absurd hc List.not_mem_nil
      · exact (ih _ c hc).trans (step_moves x a)
  exact hfrom actions _

/-! ## Calls of a sound exchange -/

/-- A frame is taken. -/
theorem takes_sound (hx : x.Sound) {s : Session} (hs : x.session? s.id = some s) (f : Soup.Frame)
    (reader : Soup.FrameReader) :
    (x.takes s.id f reader).Sound ∧ (x.takes s.id f reader).Current s := by
  have hquiet : Quiet x (x.takes s.id f reader) :=
    quiet_modify (fun _ => rfl) (fun _ => rfl) fun _ => rfl
  refine ⟨(hquiet.follows (k := s.id) hx).sound, reader, s.taken ++ [f], ?_⟩
  rw [takes_session?, if_pos rfl, hs]
  rfl

/-- The calls of the inner loop are made in sound states. -/
theorem drainCalls_sound (hx : x.Sound) (id fuel : ℕ) :
    ∀ c ∈ drainCalls id fuel x, c.before.Sound := by
  induction fuel generalizing x with
  | zero => exact fun c hc => absurd hc List.not_mem_nil
  | succ fuel ih =>
    intro c hc
    rw [drainCalls] at hc
    split at hc
    · exact absurd hc List.not_mem_nil
    · next s hs =>
      split at hc
      · exact absurd hc List.not_mem_nil
      · exact absurd hc List.not_mem_nil
      · next f reader hnext =>
        rcases List.mem_cons.mp hc with rfl | hc
        · exact hx
        · split at hc
          · exact absurd hc List.not_mem_nil
          · obtain rfl : s.id = id := session?_id hs
            obtain ⟨htakes, hcur⟩ := takes_sound hx hs f reader
            exact ih (handleFrame_follows htakes hcur f).sound c hc

/-- One read. -/
theorem readCalls_sound (hx : x.Sound) (id : ℕ) (bs : Bytes) :
    ∀ c ∈ readCalls id [.data bs] x, c.before.Sound := by
  intro c hc
  rw [readCalls] at hc
  split at hc
  · exact absurd hc List.not_mem_nil
  · next s hs =>
    dsimp only at hc
    split at hc
    · exact absurd hc List.not_mem_nil
    · cases bs with
      | nil => exact absurd hc List.not_mem_nil
      | cons b bs =>
        dsimp only at hc
        set y := x.modify id fun s' => { s' with reader := s.reader.writePtr } with hy
        have hroom : Quiet x y := quiet_modify (fun _ => rfl) (fun _ => rfl) fun _ => rfl
        have hrecv : Quiet x (y.tick.modify id fun s' =>
            { s' with reader := s.reader.writePtr.commit
                        ((b :: bs).take s.reader.writePtr.writeSpace), lastRxNs := y.nowNs }) :=
          hroom.trans ((quiet_tick y).trans
            (quiet_modify (fun _ => rfl) (fun _ => rfl) fun _ => rfl))
        rcases List.mem_append.mp hc with hc | hc
        · exact drainCalls_sound (hrecv.follows (k := id) hx).sound id _ c hc
        · split at hc
          · next z _ =>
            -- there is nothing more to read
            rw [readCalls] at hc
            split at hc
            · exact absurd hc List.not_mem_nil
            · dsimp only at hc
              split at hc <;> exact absurd hc List.not_mem_nil
          · exact absurd hc List.not_mem_nil

/-- **An order that passes the checks of `handle_enter`** reaches the engine. -/
theorem handleEnter_log (hx : x.Sound) {s : Session} (hs : x.Current s) {m : Ouch.EnterOrder}
    (hnew : s.lastUserRef < m.userRef.toNat) (hlocate : x.engine.findSymbol m.symbol ≠ 0)
    (hempty : s.orders.size = 0) (hroom : 0 < s.orders.maxEntries) :
    (x.handleEnter s m).log ≠ x.log := by
  have horders : s.orders.WF := by
    obtain ⟨reader, taken, hs⟩ := hs
    exact hx.tables s.id { s with reader := reader, taken := taken } hs
  have hkey : m.userRef.toNat ≠ FlatIdMap.kEmpty := (Nat.zero_le _).trans_lt hnew |>.ne'
  obtain ⟨orders, hins, -⟩ := FlatIdMap.insert_of_new horders
    ⟨x.engine.findSymbol m.symbol, x.nextOrderId % 2 ^ 64⟩ hkey (hempty ▸ hroom)
    (FlatIdMap.find_of_size_eq_zero horders hempty _)
  obtain ⟨hys, hdesk⟩ := writeHandle_desk hx hs hins
  obtain ⟨-, hsubmit, -⟩ :=
    submit_desk hys (x.engine.findSymbol m.symbol) (m.request s.id (x.nextOrderId % 2 ^ 64))
  have hlog : (x.handleEnter s m).log = ((x.writeHandle s m orders).submit
      (x.engine.findSymbol m.symbol) (m.request s.id (x.nextOrderId % 2 ^ 64))).desk.log := by
    rw [handleEnter_submits hnew hlocate hins rfl]
    split <;> rfl
  have hevents := MatchingEngine.submit_events_ne_nil (x.writeHandle s m orders).desk.engine
    (x.engine.findSymbol m.symbol) (m.request s.id (x.nextOrderId % 2 ^ 64))
  have hfold := (Desk.foldl_hear_frame ((x.writeHandle s m orders).desk.engine.submit
    (x.engine.findSymbol m.symbol) (m.request s.id (x.nextOrderId % 2 ^ 64))).2
    (x.writeHandle s m orders).desk).2.2.2.1
  intro heq
  rw [heq, hsubmit] at hlog
  have hsame : x.log ++ _ = x.log := (hfold.symm.trans hlog.symm)
  exact hevents (List.append_right_eq_self.mp hsame)

/-! ## Orders -/

namespace FrameCall

variable {c : FrameCall}

/-- The frame is an EnterOrder or a CancelOrder and goes to `handle_enter` or `handle_cancel`. -/
structure Orders (c : FrameCall) : Prop where
  kind : c.session.kind = .orderEntry
  type : c.frame.type = Soup.kUnsequencedData
  loggedIn : c.session.loggedIn = true
  decodes : (Ouch.decodeInbound c.frame.payload).isSome

/-- The call reaches the matching engine, which tells of it by a callback or by what `cancel`
returns. -/
def Reaches (c : FrameCall) : Prop :=
  c.behind.log ≠ c.before.log ∨ c.behind.answers ≠ c.before.answers

/-- **A proper call**: a frame reaches the matching engine when the login of its session was
accepted, and the session has sent no Logout Request and was answered no Login Rejected; and behind
an End Of Session no frame of the session makes sequenced data for it. -/
structure Proper (c : FrameCall) : Prop where
  order : c.session.kind = .orderEntry → c.Reaches → Has Soup.kLoginAccepted c.session.queued ∧
    ¬ Has Soup.kLogoutRequest c.session.taken ∧ ¬ Has Soup.kLoginRejected c.session.queued
  ended : c.session.kind = .orderEntry → Has Soup.kEndOfSession c.session.queued →
    ∀ s, c.behind.session? c.session.id = some s →
      ∃ fs, s.queued = c.session.queued ++ fs ∧ ¬ Has Soup.kSequencedData fs

/-- An order is handled while the session is not closing. -/
def Timely (c : FrameCall) : Prop := c.Orders → c.session.closeAfterFlush = false

/-- **An order that passes the checks of `handle_enter`** reaches the engine. -/
theorem reaches_enter (h : c.From x) (hsound : c.before.Sound)
    (hkind : c.session.kind = .orderEntry) (htype : c.frame.type = Soup.kUnsequencedData)
    (hlogged : c.session.loggedIn = true)
    {m : Ouch.EnterOrder} (hm : Ouch.decodeInbound c.frame.payload = some (.enterOrder m))
    (hnew : c.session.lastUserRef < m.userRef.toNat)
    (hlocate : c.before.engine.findSymbol m.symbol ≠ 0) (hempty : c.session.orders.size = 0)
    (hroom : 0 < c.session.orders.maxEntries) : c.Reaches := by
  obtain ⟨reader, hbehind⟩ := h.behind
  set y := c.before.takes c.session.id c.frame reader with hy
  obtain ⟨htakes, hcur⟩ := takes_sound hsound h.session c.frame reader
  have henter : y.handleFrame c.session c.frame = y.handleEnter c.session m := by
    rw [handleFrame, hkind, htype]
    simp [hlogged, hm, Soup.kUnsequencedData, Soup.kLoginRequest]
  have hlog := handleEnter_log htakes hcur hnew hlocate hempty hroom
  rw [← henter, ← hbehind] at hlog
  exact .inl hlog

/-- A frame for the session is nothing to the engine. -/
theorem queueFrame_log (x : Exchange) (id : ℕ) (f : Soup.Frame) :
    (x.queueFrame id f).log = x.log ∧ (x.queueFrame id f).answers = x.answers := by
  unfold queueFrame markDirty
  split
  · exact ⟨rfl, rfl⟩
  · split <;> exact ⟨rfl, rfl⟩

/-- Only an order reaches the engine. -/
theorem Reaches.orders (hreach : c.Reaches) {reader : Soup.FrameReader}
    (hbehind : c.behind =
      (c.before.takes c.session.id c.frame reader).handleFrame c.session c.frame)
    (hkind : c.session.kind = .orderEntry) : c.Orders := by
  by_contra hno
  have hsame : c.behind.log = c.before.log ∧ c.behind.answers = c.before.answers := by
    have hhandled :=
      handleFrame_handled (c.before.takes c.session.id c.frame reader) c.session c.frame
    rw [← hbehind] at hhandled
    generalize c.behind = y at hhandled
    cases hhandled with
    | order _ htype hlogged hm _ => exact absurd ⟨hkind, htype, hlogged, by rw [hm]; rfl⟩ hno
    | ignored _ => exact ⟨rfl, rfl⟩
    | violated _ _ _ => exact ⟨rfl, rfl⟩
    | refused _ _ => exact queueFrame_log (c.before.takes c.session.id c.frame reader) _ _
    | login user p _ _ =>
      exact queueFrame_log ((c.before.takes c.session.id c.frame reader).modify c.session.id
        fun s => { s with loggedIn := true, user := user }) _ _
    | logout _ _ => exact queueFrame_log (c.before.takes c.session.id c.frame reader) _ _
    | snapshot hsnap _ => exact nomatch hsnap.symm.trans hkind
  rcases hreach with hlog | hanswers
  · exact hlog hsame.1
  · exact hanswers hsame.2

/-- The queue of the session behind the call. -/
theorem behind_queued (hs : x.session? c.session.id = some c.session) {reader : Soup.FrameReader}
    (hbehind : c.behind = (x.takes c.session.id c.frame reader).handleFrame c.session c.frame)
    (hkind : c.session.kind = .orderEntry) (hno : ¬ c.Orders) {s : Session}
    (hs' : c.behind.session? c.session.id = some s) :
    ∃ fs, s.queued = c.session.queued ++ fs ∧ ¬ Has Soup.kSequencedData fs := by
  have hnone : ¬ Has Soup.kSequencedData [] := fun hc => absurd hc.choose_spec.1 List.not_mem_nil
  have htakes : (x.takes c.session.id c.frame reader).session? c.session.id = some
      { c.session with reader := reader, taken := c.session.taken ++ [c.frame] } := by
    rw [takes_session?, if_pos rfl, hs]
    rfl
  have hone : ∀ {f : Soup.Frame}, f.type ≠ Soup.kSequencedData → ¬ Has Soup.kSequencedData [f] :=
    fun hf hc => hf (Soup.has_singleton.mp hc)
  have hhandled := handleFrame_handled (x.takes c.session.id c.frame reader) c.session c.frame
  rw [← hbehind] at hhandled
  generalize c.behind = y at hhandled hs'
  cases hhandled with
  | order _ htype hlogged hm _ => exact absurd ⟨hkind, htype, hlogged, by rw [hm]; rfl⟩ hno
  | ignored _ =>
    obtain rfl := Option.some.inj (htakes.symm.trans hs')
    exact ⟨[], (List.append_nil _).symm, hnone⟩
  | violated _ _ _ =>
    rw [@session?_modify _ _ (fun s => { s with dead := true }) fun _ => rfl, if_pos rfl,
      htakes] at hs'
    obtain rfl := Option.some.inj hs'
    exact ⟨[], (List.append_nil _).symm, hnone⟩
  | refused _ _ =>
    rw [queueLast_session?, if_pos rfl, htakes] at hs'
    obtain rfl := Option.some.inj hs'
    exact ⟨_, rfl, hone (by decide)⟩
  | login user p _ _ =>
    rw [acceptLogin_session?, if_pos rfl, htakes] at hs'
    obtain rfl := Option.some.inj hs'
    exact ⟨_, rfl, hone (show Soup.kLoginAccepted ≠ Soup.kSequencedData by decide)⟩
  | logout _ _ =>
    rw [queueLast_session?, if_pos rfl, htakes] at hs'
    obtain rfl := Option.some.inj hs'
    exact ⟨_, rfl, hone (by decide)⟩
  | snapshot hsnap _ => exact nomatch hsnap.symm.trans hkind

/-- **A timely call is proper**. -/
theorem Timely.proper (htimely : c.Timely) (h : c.From x)
    (hlife : c.session.kind = .orderEntry → c.session.Life) : c.Proper := by
  obtain ⟨reader, hbehind⟩ := h.behind
  refine ⟨fun hkind hreach => ?_, fun hkind hended s hs => ?_⟩
  · have horders := hreach.orders hbehind hkind
    have hclosing := (hlife hkind).closing
    rw [htimely horders] at hclosing
    refine ⟨(hlife hkind).loggedIn horders.loggedIn, fun hc => ?_, fun hc => ?_⟩
    · exact nomatch hclosing.mpr (.inl hc)
    · exact nomatch hclosing.mpr (.inr hc)
  · have hclose := (hlife hkind).closing.mpr (.inl ((hlife hkind).ended hended))
    have hno : ¬ c.Orders := fun horders => nomatch (htimely horders).symm.trans hclose
    exact behind_queued h.session hbehind hkind hno hs

/-- An order that reaches the engine in a proper call is timely. -/
theorem Proper.timely (hproper : c.Proper) (hreach : c.Reaches)
    (hlife : c.session.kind = .orderEntry → c.session.Life) : c.Timely := by
  intro horders
  obtain ⟨-, hlogout, hrejected⟩ := hproper.order horders.kind hreach
  refine eq_false_of_ne_true fun hclose => ?_
  rcases (hlife horders.kind).closing.mp hclose with hc | hc
  · exact hlogout hc
  · exact hrejected hc

end FrameCall

/-- The sessions of the calls of a run. -/
theorem calls_life (cfg : Config) (clock : Clock) (actions : List Action) :
    ∀ c ∈ calls cfg clock actions, c.session.kind = .orderEntry → c.session.Life := by
  intro c hc
  have hfrom := calls_from cfg clock actions c hc
  have hstart : (new cfg clock).Lives := fun k s hs => by
    rw [session?_new] at hs
    exact nomatch hs
  have hlives : c.before.Lives := hfrom.moves.keeps (fun _ _ hl hm => hl.move hm) hstart
  exact hlives _ _ hfrom.session

/-- **No orders from a session that is closing**, in the runs in which no order is handled on a
session whose `close_after_flush` is set; the others are proper only as far as such an order does
not reach the engine. -/
theorem proper_of_timely (cfg : Config) (clock : Clock) (actions : List Action) :
    ((∀ c ∈ calls cfg clock actions, c.Timely) → ∀ c ∈ calls cfg clock actions, c.Proper) ∧
      ((∀ c ∈ calls cfg clock actions, c.Proper) →
        ∀ c ∈ calls cfg clock actions, c.Reaches → c.Timely) := by
  constructor
  · intro h c hc
    exact (h c hc).proper (calls_from cfg clock actions c hc) (calls_life cfg clock actions c hc)
  · intro h c hc hreach
    exact (h c hc).timely hreach (calls_life cfg clock actions c hc)

/-- An order is handled by `handle_enter` or `handle_cancel`: the sessions are told of it. -/
theorem FrameCall.Orders.tells {c : FrameCall} (h : c.Orders) (x : Exchange) :
    Tells x (x.handleFrame c.session c.frame) := by
  obtain ⟨m, hm⟩ := Option.isSome_iff_exists.mp h.decodes
  have hlogin : c.frame.type ≠ Soup.kLoginRequest := by
    rw [h.type]
    decide
  unfold handleFrame
  rw [h.kind]
  dsimp only
  rw [if_neg hlogin, if_pos h.type, h.loggedIn, if_neg (by decide), hm]
  cases m with
  | enterOrder m => exact tells_handleEnter x c.session m
  | cancelOrder m => exact tells_handleCancel x c.session m

/-- Nothing is drained when the reader has no whole frame. -/
theorem drainCalls_of_needMore {id fuel : ℕ} {x : Exchange}
    (h : ∀ s, x.session? id = some s → s.reader.next.1 = .needMore) :
    drainCalls id fuel x = [] := by
  cases fuel with
  | zero => rfl
  | succ fuel =>
    unfold drainCalls
    cases hs : x.session? id with
    | none => rfl
    | some s =>
      have hnext := h s hs
      dsimp only
      split
      · rfl
      · rfl
      · next f reader hframe =>
        rw [hframe] at hnext
        cases hnext

/-- **The last call of a drain** is an order behind which the reader has no whole frame. -/
theorem drainCalls_length {id fuel : ℕ} {x : Exchange} {i : ℕ} {c : FrameCall}
    (hc : (drainCalls id fuel x)[i]? = some c) (horders : c.Orders)
    (hlast : c.session.reader.next.2.next.1 = .needMore) :
    (drainCalls id fuel x).length = i + 1 := by
  induction fuel generalizing x i with
  | zero => cases hc
  | succ fuel ih =>
    rw [drainCalls] at hc ⊢
    cases hs : x.session? id with
    | none => simp [hs] at hc
    | some s =>
      simp only [hs] at hc ⊢
      split at hc
      · cases hc
      · cases hc
      · next f reader hnext =>
        cases i with
        | zero =>
          obtain rfl := Option.some.inj hc
          have hid : s.id = id := session?_id hs
          -- the order leaves the reader of its session as it finds it
          have hreader : ∀ s', ((x.takes id f reader).handleFrame s f).session? id = some s' →
              s'.reader = reader := by
            intro s' hs'
            have hrel := (horders.tells (x.takes id f reader)).each id
            rw [hs', takes_session?, if_pos rfl, hs] at hrel
            cases hrel with
            | some htold => exact htold.reader
          rw [hnext] at hlast
          have hdone : drainCalls id fuel ((x.takes id f reader).handleFrame s f) = [] := by
            apply drainCalls_of_needMore
            intro s' hs'
            rw [hreader s' hs']
            exact hlast
          rw [List.length_cons, hdone, ite_self]
          rfl
        | succ i =>
          rw [List.getElem?_cons_succ] at hc
          rw [List.length_cons]
          split at hc
          · cases hc
          · next hdead =>
            rw [if_neg hdead, ih hc]

/-- The frame of an order is read as the order. -/
theorem orderFrame_decodes (userRef : UInt32) :
    Ouch.decodeInbound (orderFrame userRef).payload = some (.enterOrder (order userRef)) := by
  rw [orderFrame, Ouch.encodeInbound_eq (show 41 ≤ 58 by decide),
    Ouch.decodeInbound_layout]

/-- A client connects and sends the frames in one piece. -/
def oneChunk (fs : List Soup.Frame) : List FrameCall :=
  calls oneSymbol steadyClock
    [.accept .orderEntry, .session 1 (some [.data (Soup.wire fs)]) none false]

/-- The calls for a client that sends one piece are those of a run. -/
theorem oneChunk_from (fs : List Soup.Frame) :
    ∀ c ∈ oneChunk fs, c.From (new oneSymbol steadyClock) ∧ c.before.Sound := by
  intro c hc
  refine ⟨calls_from _ _ _ c hc, ?_⟩
  have hid : (new oneSymbol steadyClock).nextSessionId ≠ 0 := by decide +kernel
  obtain ⟨haccept, -⟩ := accept_opens (new_spec oneSymbol steadyClock).1 hid .orderEntry
  refine readCalls_sound haccept 1 (Soup.wire fs) c ?_
  simpa only [oneChunk, calls, callsFrom, stepCalls, step, List.nil_append, List.append_nil]
    using hc

/-- A call on the first order of a session that is logged in reaches the engine. -/
theorem oneChunk_reaches {fs : List Soup.Frame} {i : ℕ}
    (hframe : ((oneChunk fs)[i]?).map (fun c : FrameCall =>
      (c.session.kind, c.session.loggedIn, c.frame)) = some (.orderEntry, true, orderFrame 1))
    (hstate : ((oneChunk fs)[i]?).map (fun c : FrameCall =>
      (c.session.lastUserRef, c.session.orders.size, decide (0 < c.session.orders.maxEntries),
        c.before.engine.findSymbol (order 1).symbol)) = some (0, 0, true, 1)) :
    ∃ c, (oneChunk fs)[i]? = some c ∧ c.session.kind = .orderEntry ∧ c.Reaches := by
  obtain ⟨c, hc, hfields⟩ := Option.map_eq_some_iff.mp hframe
  rw [hc, Option.map_some, Option.some.injEq] at hstate
  simp only [Prod.mk.injEq] at hfields hstate
  obtain ⟨hkind, hlogged, hframe⟩ := hfields
  obtain ⟨hlast, hsize, hroom, hlocate⟩ := hstate
  obtain ⟨hfrom, hsound⟩ := oneChunk_from _ c (List.mem_of_getElem? hc)
  have hm := orderFrame_decodes 1
  rw [← hframe] at hm
  refine ⟨c, hc, hkind, FrameCall.reaches_enter hfrom hsound hkind (by rw [hframe]; rfl)
    hlogged hm ?_ ?_ hsize (of_decide_eq_true hroom)⟩
  · rw [hlast]
    decide
  · rw [hlocate]
    decide

/-- The calls of a chunk are those of one drain. -/
theorem oneChunk_eq (fs : List Soup.Frame) : ∃ x fuel, oneChunk fs = drainCalls 1 fuel x := by
  unfold oneChunk calls
  simp only [callsFrom, stepCalls, List.nil_append, List.append_nil]
  generalize step (new oneSymbol steadyClock) (.accept .orderEntry) = x
  unfold readCalls
  cases x.session? 1 with
  | none => exact ⟨x, 0, rfl⟩
  | some s =>
    dsimp only
    split
    · exact ⟨x, 0, rfl⟩
    · cases Soup.wire fs with
      | nil => exact ⟨x, 0, rfl⟩
      | cons b bs =>
        dsimp only
        split
        · next y hy =>
          refine ⟨_, _, (congrArg _ ?_).trans (List.append_nil _)⟩
          unfold readCalls
          cases y.session? 1 with
          | none => rfl
          | some s =>
            dsimp only
            split
            · rfl
            · rfl
        · exact ⟨_, _, List.append_nil _⟩

/-- The order behind a login reaches the engine. -/
theorem login_order_reaches :
    ∃ c ∈ oneChunk [loginFrame, orderFrame 1], c.session.kind = .orderEntry ∧ c.Reaches := by
  have hsecond := @oneChunk_reaches [loginFrame, orderFrame 1] 1
    (by decide +kernel) (by decide +kernel)
  obtain ⟨c, hc, hreach⟩ := hsecond
  exact ⟨c, List.mem_of_getElem? hc, hreach⟩

/-- The two calls find a session that is not closing. -/
theorem login_order_timely : ∀ c ∈ oneChunk [loginFrame, orderFrame 1], c.Timely := by
  have hfirst : ((oneChunk [loginFrame, orderFrame 1])[0]?).map
      (fun c : FrameCall => c.session.closeAfterFlush) = some false := by
    decide +kernel
  have hsecond : ((oneChunk [loginFrame, orderFrame 1])[1]?).map
      (fun c : FrameCall => (c.session.closeAfterFlush, c.session.reader.next.2.next.1)) =
      some (false, .needMore) := by
    decide +kernel
  have hkind : ((oneChunk [loginFrame, orderFrame 1])[1]?).map (fun c : FrameCall =>
      (c.session.kind, c.session.loggedIn, c.frame)) = some (.orderEntry, true, orderFrame 1) := by
    decide +kernel
  obtain ⟨c₀, hc₀, hopen₀⟩ := Option.map_eq_some_iff.mp hfirst
  obtain ⟨c₁, hc₁, hopen₁⟩ := Option.map_eq_some_iff.mp hsecond
  rw [hc₁, Option.map_some, Option.some.injEq] at hkind
  rw [Prod.mk.injEq] at hopen₁
  simp only [Prod.mk.injEq] at hkind
  obtain ⟨x, fuel, hcalls⟩ := oneChunk_eq [loginFrame, orderFrame 1]
  rw [hcalls] at hc₀ hc₁ ⊢
  have horders : c₁.Orders := by
    refine ⟨hkind.1, ?_, hkind.2.1, ?_⟩
    · rw [hkind.2.2]
      rfl
    · rw [hkind.2.2, orderFrame_decodes]
      rfl
  have hlength := drainCalls_length hc₁ horders hopen₁.2
  intro c hc _
  obtain ⟨i, hi⟩ := List.mem_iff_getElem?.mp hc
  obtain ⟨hlt, -⟩ := List.getElem?_eq_some_iff.mp hi
  obtain rfl | rfl : i = 0 ∨ i = 1 := by omega
  · rw [← Option.some.inj (hc₀.symm.trans hi), hopen₀]
  · rw [← Option.some.inj (hc₁.symm.trans hi), hopen₁.1]

/-- An order behind a login reaches the engine, and every call is proper. -/
theorem order_behind_login :
    (∃ c ∈ oneChunk [loginFrame, orderFrame 1], c.session.kind = .orderEntry ∧ c.Reaches) ∧
      ∀ c ∈ oneChunk [loginFrame, orderFrame 1], c.Proper :=
  ⟨login_order_reaches, (proper_of_timely _ _ _).1 login_order_timely⟩

/-- **An order behind a logout** reaches the engine. -/
theorem order_behind_logout :
    ¬ ∀ c ∈ oneChunk [loginFrame, ⟨Soup.kLogoutRequest, []⟩, orderFrame 1], c.Proper := by
  intro h
  have hthird := @oneChunk_reaches [loginFrame, ⟨Soup.kLogoutRequest, []⟩, orderFrame 1] 2
    (by decide +kernel) (by decide +kernel)
  obtain ⟨c, hc, hkind, hreach⟩ := hthird
  -- what the third call has taken before
  have htaken : ((oneChunk [loginFrame, ⟨Soup.kLogoutRequest, []⟩, orderFrame 1])[2]?).map
      (fun c : FrameCall => c.session.taken.map Soup.Frame.type) =
      some [Soup.kLoginRequest, Soup.kLogoutRequest] := by
    decide +kernel
  rw [hc, Option.map_some, Option.some.injEq] at htaken
  have hlogout : Soup.kLogoutRequest ∈ c.session.taken.map Soup.Frame.type := by
    rw [htaken]
    decide
  obtain ⟨-, hno, -⟩ := (h c (List.mem_of_getElem? hc)).order hkind hreach
  exact hno (List.mem_map.mp hlogout)

end Exchange

end PulseForge
