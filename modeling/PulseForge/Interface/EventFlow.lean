import PulseForge.Interface.RefMatcher

/-!
# The event protocol of the venue

The callbacks of the engine are more than a log: each one is a transition of the markets and
of the order that is being matched. `Flow` is the state between two callbacks, and
`Flow.Step` has one rule per kind of transition, with everything that is true when it
happens. What holds of the venue over whole runs is proved from these rules, one case per
rule.
-/

set_option autoImplicit false

namespace PulseForge

/-- An event that the submit of `req` to `locate` can cause. -/
def Event.During (locate : ℕ) (req : OrderRequest) : Event → Prop
  | .accepted l r | .rejected l r _ | .takerCancelled l r _ _ => l = locate ∧ r = req
  | .fill l _ | .restingCancelled l _ _ _ => l = locate
  | .rested l o => l = locate ∧ ∃ q, o = req.resting q

/-- The markets, and the order that is being matched with what remains of it. -/
structure Flow where
  engine : RefEngine
  taker : Option (ℕ × OrderRequest × ℕ)

namespace Flow

/-- An order that is being matched; nothing is when nothing remains. -/
def taking (locate : ℕ) (req : OrderRequest) (remaining : ℕ) : Option (ℕ × OrderRequest × ℕ) :=
  if remaining = 0 then none else some (locate, req, remaining)

/-- One callback. -/
inductive Step : Flow → Event → Flow → Prop
  | rejected {r : RefEngine} {locate : ℕ} {req : OrderRequest} {why : RejectReason}
      (hwhy : r.refusal locate req = some why) :
      Step ⟨r, none⟩ (.rejected locate req why) ⟨r, none⟩
  | accepted {r : RefEngine} {locate : ℕ} {req : OrderRequest} (hok : r.refusal locate req = none) :
      Step ⟨r, none⟩ (.accepted locate req) ⟨r, some (locate, req, req.qty)⟩
  | fill {r : RefEngine} {locate : ℕ} {m : Market} {req : OrderRequest} {remaining : ℕ}
      {maker : BookOrder} {rest : List BookOrder} (hmarket : r.market? locate = some m)
      (hfront : m.side req.side.opposite = maker :: rest) (hremaining : 0 < remaining)
      (hcross : req.side.crosses maker.price req.price)
      (hother : ¬ (req.owner ≠ 0 ∧ maker.owner = req.owner)) :
      Step ⟨r, some (locate, req, remaining)⟩
        (.fill locate
          (MatchingEngine.makeFill r.nextMatch req maker (min remaining maker.qty) remaining))
        ⟨{ r.setMarket locate (m.take maker (min remaining maker.qty)) with
            nextMatch := (r.nextMatch + 1) % 2 ^ 64 },
          taking locate req (remaining - min remaining maker.qty)⟩
  | selfMatch {r : RefEngine} {locate : ℕ} {m : Market} {req : OrderRequest} {remaining : ℕ}
      {maker : BookOrder} {rest : List BookOrder} (hmarket : r.market? locate = some m)
      (hfront : m.side req.side.opposite = maker :: rest) (hremaining : 0 < remaining)
      (hown : req.owner ≠ 0 ∧ maker.owner = req.owner) (hstp : r.stp = .cancelResting) :
      Step ⟨r, some (locate, req, remaining)⟩
        (.restingCancelled locate maker maker.qty .selfMatch)
        ⟨r.setMarket locate (m.take maker maker.qty), some (locate, req, remaining)⟩
  | takerCancelled {r : RefEngine} {locate : ℕ} {req : OrderRequest} {remaining : ℕ}
      {why : CancelReason} (hremaining : 0 < remaining) :
      Step ⟨r, some (locate, req, remaining)⟩ (.takerCancelled locate req remaining why) ⟨r, none⟩
  | rested {r : RefEngine} {locate : ℕ} {m : Market} {req : OrderRequest} {remaining : ℕ}
      (hmarket : r.market? locate = some m) (hremaining : 0 < remaining) (hday : req.tif = .day)
      (hgrid : m.cfg.onGrid req.price) (hroom : ¬ m.refuses req.id)
      (hclear : ∀ maker ∈ m.side req.side.opposite, ¬ req.side.crosses maker.price req.price) :
      Step ⟨r, some (locate, req, remaining)⟩ (.rested locate (req.resting remaining))
        ⟨r.setMarket locate (m.rest (req.resting remaining)), none⟩
  | cancelled {r : RefEngine} {locate : ℕ} {m : Market} {o : BookOrder} {shares : ℕ}
      {why : CancelReason} (hmarket : r.market? locate = some m) (hfind : m.find o.id = some o)
      (hpos : 0 < shares) (hle : shares ≤ o.qty) :
      Step ⟨r, none⟩ (.restingCancelled locate o shares why)
        ⟨r.setMarket locate (m.take o shares), none⟩

end Flow

end PulseForge
