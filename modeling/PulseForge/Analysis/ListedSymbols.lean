import PulseForge.Foundation.ListSearch
import PulseForge.Analysis.SessionTables

/-!
# The symbols stay listed

Symbols are listed when the process starts; matching, cancelling and every action of the event loop
leave the list as it is. A search in the engine is a search in the list it was started with.
-/

set_option autoImplicit false

namespace PulseForge

open Foundation

/-! ## The engine -/

namespace MatchingEngine

variable {e e' e'' : MatchingEngine}

/-- The same symbols are listed. -/
structure SameListing (e e' : MatchingEngine) : Prop where
  symbols : e'.symbols = e.symbols
  count : e'.books.length = e.books.length

theorem SameListing.refl (e : MatchingEngine) : SameListing e e := ⟨rfl, rfl⟩

theorem SameListing.trans (h : SameListing e e') (h' : SameListing e' e'') :
    SameListing e e'' :=
  ⟨h'.symbols.trans h.symbols, h'.count.trans h.count⟩

/-- Writing a book lists nothing. -/
theorem sameListing_setBook (e : MatchingEngine) (locate : ℕ) (b : OrderBook) :
    SameListing e (e.setBook locate b) :=
  ⟨rfl, List.length_set⟩

theorem sameListing_fill (e : MatchingEngine) (locate : ℕ) (b : OrderBook) (n : ℕ) :
    SameListing e { e.setBook locate b with nextMatch := n } :=
  ⟨rfl, List.length_set⟩

/-- **The matching loop**: every turn replaces a book. -/
theorem sameListing_matchLoop (locate : ℕ) (req : OrderRequest) (fuel : ℕ) {remaining : ℕ}
    {left : Option ℕ} {cbs : List Callback}
    (h : matchLoop locate req fuel e remaining = some (e', left, cbs)) : SameListing e e' := by
  induction fuel generalizing e remaining left cbs with
  | zero => cases h
  | succ fuel ih =>
    rw [matchLoop] at h
    split at h
    · cases h
      exact .refl _
    split at h
    · cases h
      exact .refl _
    split at h
    · cases h
      exact .refl _
    split at h
    · split at h
      · obtain ⟨⟨e₁, left₁, cbs₁⟩, hloop, heq⟩ := Option.map_eq_some_iff.mp h
        cases heq
        exact (sameListing_setBook e locate _).trans (ih hloop)
      · cases h
        exact .refl _
    · obtain ⟨⟨e₁, left₁, cbs₁⟩, hloop, heq⟩ := Option.map_eq_some_iff.mp h
      cases heq
      exact (sameListing_fill e locate _ _).trans (ih hloop)

theorem sameListing_restOrCancel (e : MatchingEngine) (locate : ℕ) (req : OrderRequest)
    (remaining : ℕ) : SameListing e (restOrCancel e locate req remaining).1 := by
  unfold restOrCancel
  split_ifs
  · exact .refl e
  · exact .refl e
  · split
    · exact sameListing_setBook e locate _
    · exact sameListing_setBook e locate _

/-- A submit lists nothing. -/
theorem sameListing_submit {locate : ℕ} {req : OrderRequest} {cbs : List Callback}
    (h : e.submit locate req = some (e', cbs)) : SameListing e e' := by
  unfold submit at h
  split at h
  · cases h
    exact .refl e
  · obtain ⟨⟨e₁, left, cbs₁⟩, hloop, heq⟩ := Option.map_eq_some_iff.mp h
    have hsame := sameListing_matchLoop locate req _ hloop
    cases left with
    | none =>
      cases heq
      exact hsame
    | some remaining =>
      cases heq
      exact hsame.trans (sameListing_restOrCancel e₁ locate req remaining)

theorem sameListing_cancel (e : MatchingEngine) (locate id newQty owner : ℕ) (why : CancelReason) :
    SameListing e (e.cancel locate id newQty owner why).1 := by
  unfold cancel
  split
  · exact .refl e
  split
  · exact .refl e
  split
  · exact .refl e
  split
  · exact .refl e
  · exact sameListing_setBook e locate _

/-- `find_symbol` gives the first place of a list that is short enough. -/
theorem findSymbol_eq (h : e.symbols.length < 2 ^ 16) (symbol : Symbol) :
    e.findSymbol symbol = firstPlace symbol e.symbols := by
  have hle := firstPlace_le symbol e.symbols
  unfold findSymbol firstPlace at *
  cases hi : e.symbols.findIdx? fun s => s = symbol with
  | none => rfl
  | some i =>
    rw [hi] at hle
    exact Nat.mod_eq_of_lt (hle.trans_lt h)

end MatchingEngine

/-! ## The process -/

namespace Exchange

open MatchingEngine

variable {x y z : Exchange}

/-- The engines of two states list the same symbols. -/
def Lists (x y : Exchange) : Prop := SameListing x.engine y.engine

theorem Lists.refl (x : Exchange) : Lists x x := SameListing.refl x.engine

theorem Lists.trans (h : Lists x y) (h' : Lists y z) : Lists x z := SameListing.trans h h'

theorem Lists.of_eq (h : y.engine = x.engine) : Lists x y := by
  unfold Lists
  rw [h]
  exact .refl _

theorem Quiet.lists (h : Quiet x y) : Lists x y := .of_eq h.engine

theorem Lists.ite {p : Prop} [Decidable p] (h : Lists x y) (h' : Lists x z) :
    Lists x (if p then y else z) := by
  split
  · exact h
  · exact h'

theorem Lists.foldl {α : Type} {f : Exchange → α → Exchange} (hf : ∀ x a, Lists x (f x a))
    (l : List α) (x : Exchange) : Lists x (l.foldl f x) := by
  induction l generalizing x with
  | nil => exact .refl x
  | cons a l ih => exact (hf x a).trans (ih (f x a))

/-- A change of a session lists nothing. -/
theorem lists_modify (x : Exchange) (id : ℕ) (f : Session → Session) : Lists x (x.modify id f) :=
  .of_eq rfl

theorem lists_queueFrame (x : Exchange) (id : ℕ) (f : Soup.Frame) : Lists x (x.queueFrame id f) :=
  .of_eq (queueFrame_changes x id f).engine

theorem lists_sendReject (x : Exchange) (id : ℕ) (userRef : UInt32) (reason : UInt8) :
    Lists x (x.sendReject id userRef reason) :=
  .of_eq (sendReject_changes x id userRef reason).engine

/-- A submit of the process lists nothing. -/
theorem lists_submit (x : Exchange) (locate : ℕ) (req : OrderRequest) :
    Lists x (x.submit locate req) := by
  unfold submit
  split
  · exact .refl x
  · next h => exact sameListing_submit h

theorem lists_cancel (x : Exchange) (locate id newQty owner : ℕ) (why : CancelReason) :
    Lists x (x.cancel locate id newQty owner why) :=
  sameListing_cancel x.engine locate id newQty owner why

theorem lists_closeSession (x : Exchange) (id : ℕ) : Lists x (x.closeSession id) := by
  unfold closeSession
  split
  · exact .refl x
  · have hcancels := Lists.foldl
      (fun x (h : OrderHandle) => lists_cancel x h.locate h.id 0 id .supervisory)
    exact (hcancels _ x).trans (.of_eq rfl)

theorem lists_handleEnter (x : Exchange) (s : Session) (m : Ouch.EnterOrder) :
    Lists x (x.handleEnter s m) := by
  unfold handleEnter
  dsimp only
  split_ifs
  · refine Lists.trans ?_ (lists_sendReject _ _ _ _)
    exact .of_eq rfl
  · refine Lists.trans ?_ (lists_sendReject _ _ _ _)
    exact .of_eq rfl
  · split
    · refine Lists.trans ?_ (lists_sendReject _ _ _ _)
      exact .of_eq rfl
    · split_ifs
      · refine Lists.trans ?_ (lists_modify _ _ _)
        refine Lists.trans ?_ (lists_submit _ _ _)
        exact .of_eq rfl
      · refine Lists.trans ?_ (lists_submit _ _ _)
        exact .of_eq rfl

theorem lists_handleCancel (x : Exchange) (s : Session) (m : Ouch.CancelOrder) :
    Lists x (x.handleCancel s m) := by
  unfold handleCancel
  split
  · exact .refl x
  · exact lists_cancel _ _ _ _ _ _

theorem lists_sendSnapshot (x : Exchange) (id : ℕ) : Lists x (x.sendSnapshot id) := by
  unfold sendSnapshot
  dsimp only
  refine Lists.trans (Lists.trans ?_ (lists_queueFrame _ _ _)) (.of_eq rfl)
  refine Lists.trans ?_ (Lists.foldl (fun x m => lists_queueFrame x id _) _ _)
  exact .of_eq rfl

theorem lists_handleFrame (x : Exchange) (s : Session) (f : Soup.Frame) :
    Lists x (x.handleFrame s f) := by
  unfold handleFrame
  split
  · split_ifs
    · exact lists_sendSnapshot x s.id
    · exact .refl x
  · split_ifs
    · exact (quiet_handleLogin x s f.payload).lists
    · exact .of_eq rfl
    · split
      · exact .refl x
      · exact lists_handleEnter x s _
      · exact lists_handleCancel x s _
    · exact (lists_queueFrame _ _ _).trans (.of_eq rfl)
    · exact .refl x

theorem lists_drainFrames (id fuel : ℕ) (x : Exchange) : Lists x (drainFrames id fuel x).1 := by
  induction fuel generalizing x with
  | zero => exact .refl x
  | succ fuel ih =>
    rw [drainFrames]
    split
    · exact .refl x
    · next s _ =>
      split
      · exact .refl x
      · exact .of_eq rfl
      · next f reader _ =>
        have hframe : Lists x ((x.modify id fun s =>
            { s with reader := reader, taken := s.taken ++ [f] }).handleFrame s f) :=
          (lists_modify x id _).trans (lists_handleFrame _ s f)
        dsimp only
        split_ifs
        · exact hframe
        · exact hframe.trans (ih _)

theorem lists_drained {id fuel : ℕ} {goesOn : Bool}
    (h : drainFrames id fuel x = (y, goesOn)) : Lists x y := by
  have hlists := lists_drainFrames id fuel x
  rw [h] at hlists
  exact hlists

/-- `read_session` lists nothing. -/
theorem lists_readSession (id : ℕ) (recvs : List Recv) (x : Exchange) :
    Lists x (readSession id recvs x) := by
  induction recvs generalizing x with
  | nil =>
    rw [readSession]
    split
    · exact .refl x
    · dsimp only
      split_ifs
      · exact .of_eq rfl
      · exact .of_eq rfl
  | cons recv recvs ih =>
    rw [readSession]
    split
    · exact .refl x
    · dsimp only
      split_ifs
      · exact .of_eq rfl
      · cases recv with
        | interrupted =>
          refine Lists.trans ?_ (ih _)
          exact lists_modify _ _ _
        | closed => exact .of_eq rfl
        | failed => exact .of_eq rfl
        | data bs =>
          cases bs with
          | nil => exact .of_eq rfl
          | cons b bs =>
            dsimp only
            split
            · next y h =>
              refine Lists.trans (Lists.trans ?_ (lists_drained h)) (ih y)
              exact .of_eq rfl
            · next y h =>
              refine Lists.trans ?_ (lists_drained h)
              exact .of_eq rfl

theorem lists_synthPassive (x : Exchange) (locate : ℕ) (tick fair : ℤ) :
    Lists x (x.synthPassive locate tick fair) := by
  unfold synthPassive
  refine Lists.ite ?_ ?_
  · refine Lists.trans (Lists.trans ?_ (lists_submit _ _ _)) (.of_eq rfl)
    exact .of_eq rfl
  · refine Lists.trans ?_ (lists_submit _ _ _)
    exact .of_eq rfl

theorem lists_synthCancel (x : Exchange) (locate : ℕ) : Lists x (x.synthCancel locate) := by
  unfold synthCancel
  dsimp only
  split
  · exact .of_eq rfl
  · split_ifs
    all_goals
      refine Lists.trans ?_ (lists_cancel _ _ _ _ _ _)
      exact .of_eq rfl

theorem lists_synthAggressive (x : Exchange) (locate : ℕ) (tick fair : ℤ) :
    Lists x (x.synthAggressive locate tick fair) := by
  unfold synthAggressive
  refine Lists.trans ?_ (lists_submit _ _ _)
  exact .of_eq rfl

/-- **Synthetic flow** draws random numbers and then makes one of three calls. -/
theorem lists_synthStep (x : Exchange) (locate : ℕ) : Lists x (x.synthStep locate) := by
  have hwalk := (quiet_walkFair x (x.engine.book locate).cfg (x.synthOf locate).fair).lists
  unfold synthStep
  refine Lists.ite ?_ (Lists.ite ?_ ?_)
  · refine Lists.trans ?_ (lists_synthPassive _ _ _ _)
    exact hwalk
  · refine Lists.trans ?_ (lists_synthCancel _ _)
    exact hwalk
  · refine Lists.trans ?_ (lists_synthAggressive _ _ _ _)
    exact hwalk

/-- **Every action** leaves the list as it is. -/
theorem lists_step (x : Exchange) (a : Action) : Lists x (x.step a) := by
  cases a with
  | accept kind =>
    simp only [step]
    unfold accept
    split
    · exact .refl x
    · dsimp only
      split
      · exact .of_eq rfl
      · exact .of_eq rfl
  | session id recvs sends hup =>
    cases recvs with
    | none => exact (quiet_onSessionEvent_tail x id sends hup).lists
    | some recvs =>
      exact (lists_readSession id recvs x).trans (quiet_onSessionEvent_tail _ id sends hup).lists
  | synth locate =>
    simp only [step]
    split_ifs
    · exact lists_synthStep x locate
    · exact .refl x
  | heartbeat now => exact .of_eq rfl
  | watchdog now id => exact (quiet_watchdog x now id).lists
  | reap id =>
    simp only [step]
    split
    · exact .refl x
    · split_ifs
      · exact lists_closeSession x id
      · exact .refl x
  | flushDirty sends => exact (quiet_flushDirtySessions x sends).lists
  | flushFeed => exact .of_eq rfl

/-! ## The start of day -/

/-- The default configuration is one that a book can have. -/
theorem accepted_default : ({} : BookConfig).Accepted := by
  refine ⟨?_, ?_, ?_, ?_, ?_, ?_, ?_⟩
  all_goals decide

/-- **Listing** puts the symbol and its book at the back. -/
theorem listSymbol_eq (e : MatchingEngine) (symbol : Symbol) :
    (listSymbol e symbol).symbols = e.symbols ++ [symbol] ∧
      (listSymbol e symbol).books.length = e.books.length + 1 := by
  obtain ⟨b, hnew⟩ := OrderBook.new_isOk accepted_default
  unfold listSymbol
  rcases addSymbol_cases e symbol {} with ⟨why, hadd⟩ | ⟨b', -, hadd⟩
  · unfold addSymbol at hadd
    rw [hnew] at hadd
    cases hadd
  · rw [hadd]
    exact ⟨rfl, List.length_append⟩

/-- The constructor lists the symbols in order, each with a book. -/
theorem foldl_listSymbol (symbols : List Symbol) (e : MatchingEngine) :
    (symbols.foldl listSymbol e).symbols = e.symbols ++ symbols ∧
      (symbols.foldl listSymbol e).books.length = e.books.length + symbols.length := by
  induction symbols generalizing e with
  | nil => exact ⟨(List.append_nil _).symm, rfl⟩
  | cons s symbols ih =>
    obtain ⟨hsymbols, hcount⟩ := ih (listSymbol e s)
    obtain ⟨hsymbol, hbook⟩ := listSymbol_eq e s
    rw [List.foldl_cons, hsymbols, hcount, hsymbol, hbook, List.append_assoc, List.length_cons]
    exact ⟨rfl, by omega⟩

/-- **In every state reached** the engine lists the symbols it was started with. -/
theorem listing_after (cfg : Config) (clock : Clock) (actions : List Action) :
    (after cfg clock actions).engine.symbols = cfg.symbols ∧
      (after cfg clock actions).engine.books.length = cfg.symbols.length := by
  obtain ⟨x₀, hquiet, -, -, -, -, hengine⟩ := new_quiet cfg clock
  obtain ⟨hsymbols, hcount⟩ := foldl_listSymbol cfg.symbols { stp := cfg.stp }
  rw [← hengine, ← hquiet.engine] at hsymbols hcount
  have hrun : Lists (new cfg clock) (after cfg clock actions) :=
    Lists.foldl lists_step actions (new cfg clock)
  constructor
  · rw [hrun.symbols, hsymbols]
    rfl
  · rw [hrun.count, hcount]
    exact Nat.zero_add _

end Exchange

end PulseForge
