import PulseForge.Analysis.SessionLife

/-!
# The output of a session

What the kernel accepted and what is left in the buffer are together the frames that were queued.
A session with bytes left is dirty until the loop flushes it, and armed for writing or dead
behind that; so between two rounds of the loop every live session with bytes left is armed.
-/

set_option autoImplicit false

namespace PulseForge

/-! ## One session -/

namespace Session

variable {s s' : Session}

/-- The buffer is the rest of the frames. -/
structure Fifo (s : Session) : Prop where
  bytes : s.sent ++ s.out.drop s.outOff = Soup.wire s.queued
  off : s.outOff ≤ s.out.length

/-- Bytes that are left wait for the socket. -/
def Armed (s : Session) : Prop :=
  s.outOff < s.out.length → s.wantWrite = true ∨ s.dead = true

/-- Bytes that are left wait for the socket or for the loop. -/
structure Queue (s : Session) : Prop where
  fifo : s.Fifo
  waits : s.Armed ∨ s.dirty = true

/-- The fields that matter to the output. -/
theorem Fifo.of_eq (h : s.Fifo) (hsent : s'.sent = s.sent) (hout : s'.out = s.out)
    (hoff : s'.outOff = s.outOff) (hqueued : s'.queued = s.queued) : s'.Fifo := by
  refine ⟨?_, ?_⟩
  · rw [hsent, hout, hoff, hqueued]
    exact h.bytes
  · rw [hout, hoff]
    exact h.off

/-- **Frames behind the others.** -/
theorem Fifo.append (h : s.Fifo) {fs : List Soup.Frame} (hsent : s'.sent = s.sent)
    (hout : s'.out = s.out ++ Soup.wire fs) (hoff : s'.outOff = s.outOff)
    (hqueued : s'.queued = s.queued ++ fs) : s'.Fifo := by
  refine ⟨?_, ?_⟩
  · rw [hsent, hout, hoff, hqueued, List.drop_append_of_le_length h.off, ← List.append_assoc,
      h.bytes, Soup.wire_append]
  · rw [hout, hoff, List.length_append]
    exact h.off.trans (Nat.le_add_right _ _)

/-- Being told something keeps the output in order. -/
theorem Queue.told (h : s.Queue) (ht : Told s s') : s'.Queue := by
  obtain ⟨fs, -, hqueued, hout, hdirty⟩ := ht.queued
  refine ⟨h.fifo.append ht.sent hout ht.outOff hqueued, ?_⟩
  rcases eq_or_ne fs [] with rfl | hne
  · rcases h.waits with harmed | hd
    · refine .inl fun hleft => ?_
      rw [ht.outOff, hout] at hleft
      rw [ht.wantWrite, ht.dead]
      exact harmed (by simpa [Soup.wire] using hleft)
    · exact .inr (ht.dirty hd)
  · exact .inr (hdirty hne)

/-- A frame behind the others. -/
theorem Fifo.queueFrame (h : s.Fifo) (f : Soup.Frame) : (s.queueFrame f).Fifo := by
  refine h.append rfl ?_ rfl rfl
  rw [Soup.wire_singleton]
  exact Soup.appendFrame_append _ _

/-- **`flush_session`** keeps the order of the bytes, and what it leaves is armed. -/
theorem Fifo.flush (h : s.Fifo) (now : ℕ) (sends : List Send) :
    (s.flush now sends).Fifo ∧ (s.flush now sends).Armed := by
  have hdone : ∀ {s : Session}, s.Fifo → ¬ s.outOff < s.out.length →
      (s.flushed now).Fifo ∧ (s.flushed now).Armed := by
    intro s h hleft
    refine ⟨⟨?_, le_rfl⟩, fun hc => absurd hc (Nat.lt_irrefl 0)⟩
    have hbytes := h.bytes
    rw [List.drop_eq_nil_of_le (not_lt.mp hleft)] at hbytes
    exact hbytes
  induction sends generalizing s with
  | nil =>
    rw [Session.flush]
    split
    · exact ⟨h.of_eq rfl rfl rfl rfl, fun _ => .inl rfl⟩
    · next hleft => exact hdone h hleft
  | cons answer sends ih =>
    cases answer with
    | again =>
      rw [Session.flush]
      split
      · exact ⟨h.of_eq rfl rfl rfl rfl, fun _ => .inl rfl⟩
      · next hleft => exact hdone h hleft
    | interrupted =>
      rw [Session.flush]
      split
      · exact ih h
      · next hleft => exact hdone h hleft
    | failed =>
      rw [Session.flush]
      split
      · exact ⟨h.of_eq rfl rfl rfl rfl, fun _ => .inr rfl⟩
      · next hleft => exact hdone h hleft
    | accepted n =>
      rw [Session.flush]
      split
      · next hleft =>
        refine ih ⟨?_, ?_⟩
        · change (s.sent ++ (s.out.drop s.outOff).take _) ++ s.out.drop (s.outOff + _) = _
          rw [← List.drop_drop, List.append_assoc, List.take_append_drop]
          exact h.bytes
        · change s.outOff + min (max n 1) (s.out.length - s.outOff) ≤ s.out.length
          omega
      · next hleft => exact hdone h hleft

/-- `flush_session` does not mark. -/
theorem dirty_flush (now : ℕ) (s : Session) (sends : List Send) :
    (s.flush now sends).dirty = s.dirty := by
  induction sends generalizing s with
  | nil =>
    rw [Session.flush]
    split <;> rfl
  | cons answer sends ih =>
    cases answer with
    | again =>
      rw [Session.flush]
      split <;> rfl
    | interrupted =>
      rw [Session.flush]
      split
      · exact ih s
      · rfl
    | failed =>
      rw [Session.flush]
      split <;> rfl
    | accepted n =>
      rw [Session.flush]
      split
      · exact ih _
      · rfl

end Session

/-! ## All sessions -/

namespace Exchange

variable {x y : Exchange}

/-- **The output of every session is in order.** -/
structure Queues (x : Exchange) : Prop where
  listed : x.Listed
  each : ∀ k s, x.session? k = some s → s.Queue

/-- Telling keeps the output in order. -/
theorem Queues.tells (h : x.Queues) (ht : Tells x y) : y.Queues := by
  refine ⟨ht.listed h.listed, fun k s hs => ?_⟩
  have hrel := ht.each k
  rw [hs] at hrel
  generalize hold : x.session? k = old at hrel
  cases hrel with
  | some htold => exact (h.each k _ hold).told htold

/-- A change of one session that keeps its output in order. -/
theorem Queues.modify (h : x.Queues) {id : ℕ} {f : Session → Session}
    (hid : ∀ s, (f s).id = s.id) (hdirty : ∀ s, (f s).dirty = true → s.dirty = true)
    (hf : ∀ s, s.Queue → (f s).Queue) : (x.modify id f).Queues := by
  refine ⟨listed_modify h.listed hid hdirty, fun k s hs => ?_⟩
  rw [session?_modify hid] at hs
  split_ifs at hs
  · obtain ⟨s₀, hs₀, rfl⟩ := Option.map_eq_some_iff.mp hs
    exact hf s₀ (h.each k s₀ hs₀)
  · exact h.each k s hs

/-- A frame for one session. -/
theorem Queues.queued (h : x.Queues) (hlisted : y.Listed) {id : ℕ} {f : Session → Session}
    (hy : ∀ k, y.session? k = if k = id then (x.session? k).map f else x.session? k)
    (hf : ∀ s, s.Fifo → (f s).Fifo ∧ (f s).dirty = true) : y.Queues := by
  refine ⟨hlisted, fun k s hs => ?_⟩
  rw [hy] at hs
  split_ifs at hs
  · obtain ⟨s₀, hs₀, rfl⟩ := Option.map_eq_some_iff.mp hs
    obtain ⟨hfifo, hd⟩ := hf s₀ (h.each k s₀ hs₀).fifo
    exact ⟨hfifo, .inr hd⟩
  · exact h.each k s hs

/-- `queue_frame` keeps the output in order. -/
theorem Queues.queueFrame (h : x.Queues) (id : ℕ) (f : Soup.Frame) : (x.queueFrame id f).Queues :=
  h.queued (listed_queueFrame h.listed id f) (queueFrame_session? x id f) fun _ hs =>
    ⟨(hs.queueFrame f).of_eq rfl rfl rfl rfl, rfl⟩

/-- So does the last frame. -/
theorem Queues.queueLast (h : x.Queues) (id : ℕ) (f : Soup.Frame) : (x.queueLast id f).Queues :=
  h.queued (listed_queueLast h.listed id f) (queueLast_session? x id f) fun _ hs =>
    ⟨(hs.queueFrame f).of_eq rfl rfl rfl rfl, rfl⟩

/-- A change of the flags of the session. -/
theorem Queues.flag (h : x.Queues) {id : ℕ} {f : Session → Session} (hid : ∀ s, (f s).id = s.id)
    (hsent : ∀ s, (f s).sent = s.sent) (hout : ∀ s, (f s).out = s.out)
    (hoff : ∀ s, (f s).outOff = s.outOff) (hqueued : ∀ s, (f s).queued = s.queued)
    (hdirty : ∀ s, (f s).dirty = s.dirty) (hwant : ∀ s, (f s).wantWrite = s.wantWrite)
    (hdead : ∀ s, s.dead = true → (f s).dead = true) : (x.modify id f).Queues := by
  refine h.modify hid (fun s hd => (hdirty s).symm.trans hd) fun s hs => ?_
  refine ⟨hs.fifo.of_eq (hsent s) (hout s) (hoff s) (hqueued s), ?_⟩
  rcases hs.waits with harmed | hd
  · refine .inl fun hleft => ?_
    rw [hout, hoff] at hleft
    rw [hwant]
    exact (harmed hleft).imp_right (hdead s)
  · exact .inr ((hdirty s).trans hd)

/-- Handling a frame keeps the output in order. -/
theorem Queues.handled {s : Session} {f : Soup.Frame} (h : x.Queues) (hy : Handled x s f y) :
    y.Queues := by
  cases hy with
  | order _ _ _ _ htells => exact h.tells htells
  | ignored _ => exact h
  | violated _ _ _ =>
    exact h.flag (fun _ => rfl) (fun _ => rfl) (fun _ => rfl) (fun _ => rfl) (fun _ => rfl)
      (fun _ => rfl) (fun _ => rfl) fun _ _ => rfl
  | refused _ _ => exact h.queueLast _ _
  | login user p _ _ =>
    have hflag : (x.modify s.id fun s => { s with loggedIn := true, user := user }).Queues :=
      h.flag (fun _ => rfl) (fun _ => rfl) (fun _ => rfl) (fun _ => rfl) (fun _ => rfl)
        (fun _ => rfl) (fun _ => rfl) fun _ hd => hd
    exact hflag.queueFrame _ _
  | logout _ _ => exact h.queueLast _ _
  | snapshot _ htells => exact (h.tells htells).queueLast _ _

/-- **`flush_dirty_sessions`**: behind it every session is armed and none is dirty. -/
theorem Queues.flushDirtySessions (h : x.Queues) (sends : ℕ → List Session.Send) (k : ℕ)
    (s : Session) (hs : (x.flushDirtySessions sends).session? k = some s) :
    s.Fifo ∧ s.Armed ∧ s.dirty = false := by
  -- the sessions that are still to be flushed are those of the ids that are left
  have hfold : ∀ (ids : List ℕ) (y : Exchange),
      (∀ k s, y.session? k = some s → s.Fifo ∧ (k ∉ ids → s.Armed ∧ s.dirty = false)) →
      ∀ k s, (ids.foldl (fun x id => x.tick.modify id fun s =>
          ({ s with dirty := false } : Session).flush x.nowNs (sends id)) y).session? k = some s →
        s.Fifo ∧ s.Armed ∧ s.dirty = false := by
    intro ids
    induction ids with
    | nil =>
      intro y hy k s hs
      obtain ⟨hfifo, hrest⟩ := hy k s hs
      exact ⟨hfifo, hrest List.not_mem_nil⟩
    | cons id ids ih =>
      intro y hy
      refine ih _ fun k s hs => ?_
      rw [@session?_modify y.tick id
        (fun s => ({ s with dirty := false } : Session).flush y.nowNs (sends id))
        fun s => (flush_frame _ { s with dirty := false } _).1] at hs
      split_ifs at hs with hk
      · obtain ⟨s₀, hs₀, rfl⟩ := Option.map_eq_some_iff.mp hs
        have hfifo : ({ s₀ with dirty := false } : Session).Fifo :=
          (hy k s₀ hs₀).1.of_eq rfl rfl rfl rfl
        obtain ⟨hflushed, harmed⟩ := hfifo.flush y.nowNs (sends id)
        exact ⟨hflushed, fun _ => ⟨harmed, Session.dirty_flush _ _ _⟩⟩
      · obtain ⟨hfifo, hrest⟩ := hy k s hs
        exact ⟨hfifo, fun hout => hrest (List.not_mem_cons_of_ne_of_not_mem hk hout)⟩
  refine hfold x.dirty x (fun k s hs => ?_) k s hs
  have hqueue := h.each k s hs
  refine ⟨hqueue.fifo, fun hout => ?_⟩
  have hclean : s.dirty = false := eq_false_of_ne_true fun hd => hout (h.listed k s hs hd)
  exact ⟨hqueue.waits.resolve_right fun hd => (nomatch hclean.symm.trans hd), hclean⟩

/-- Every move keeps the output in order. -/
theorem Queues.move (h : x.Queues) (hm : SessionMove x y) : y.Queues := by
  cases hm with
  | tells htells => exact h.tells htells
  | reads id reader now =>
    exact h.flag (fun _ => rfl) (fun _ => rfl) (fun _ => rfl) (fun _ => rfl) (fun _ => rfl)
      (fun _ => rfl) (fun _ => rfl) fun _ hd => hd
  | dies id =>
    exact h.flag (fun _ => rfl) (fun _ => rfl) (fun _ => rfl) (fun _ => rfl) (fun _ => rfl)
      (fun _ => rfl) (fun _ => rfl) fun _ _ => rfl
  | handles hs =>
    refine Queues.handled ?_ (handleFrame_handled _ _ _)
    exact h.flag (fun _ => rfl) (fun _ => rfl) (fun _ => rfl) (fun _ => rfl) (fun _ => rfl)
      (fun _ => rfl) (fun _ => rfl) fun _ hd => hd
  | flushes id now sends =>
    refine h.modify (fun s => ?_) (fun s hd => ?_) fun s hs => ?_
    · split
      · rfl
      · exact (flush_frame now s sends).1
    · split at hd
      · exact hd
      · exact (Session.dirty_flush now s sends).symm.trans hd
    · split
      · exact hs
      · obtain ⟨hfifo, harmed⟩ := hs.fifo.flush now sends
        exact ⟨hfifo, .inl harmed⟩
  | flushesDirty sends =>
    refine ⟨fun k s hs hd => ?_, fun k s hs => ?_⟩
    · obtain ⟨-, -, hclean⟩ := h.flushDirtySessions sends k s hs
      exact nomatch hclean.symm.trans hd
    · obtain ⟨hfifo, harmed, -⟩ := h.flushDirtySessions sends k s hs
      exact ⟨hfifo, .inl harmed⟩
  | beats id => exact h.queueFrame id _
  | drops id =>
    refine ⟨fun k s hs hd => ?_, fun k s hs => ?_⟩
    · rw [session?_filter] at hs
      split_ifs at hs
      exact h.listed k s hs hd
    · rw [session?_filter] at hs
      split_ifs at hs
      exact h.each k s hs
  | accepts kind =>
    refine ⟨fun k s hs hd => ?_, fun k s hs => ?_⟩
    · rw [dirty_accept]
      rcases accept_session? hs with hold | ⟨orders, rfl⟩
      · exact h.listed k s hold hd
      · exact nomatch hd
    · rcases accept_session? hs with hold | ⟨orders, rfl⟩
      · exact h.each k s hold
      · exact ⟨⟨rfl, le_rfl⟩, .inl fun hleft => absurd hleft (Nat.lt_irrefl 0)⟩

/-- **Every run** keeps the output in order. -/
theorem queues_after (cfg : Config) (clock : Clock) (actions : List Action) :
    (after cfg clock actions).Queues := by
  refine (after_moves cfg clock actions).keeps (fun x y h hm => h.move hm)
    ⟨fun k s hs => ?_, fun k s hs => ?_⟩
  · rw [session?_new] at hs
    exact nomatch hs
  · rw [session?_new] at hs
    exact nomatch hs

end Exchange

end PulseForge
