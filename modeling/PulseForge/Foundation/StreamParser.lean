import Mathlib.Tactic

/-!
# Parsing a stream front to back

`front` looks at the front of a byte string: an item and what follows it, the beginning of an
item, or no item at all. A parser takes items off the front until it cannot. When an item
that is complete stays the same item as more arrives (`Incremental`), what a stream parses to
does not depend on how much of it had arrived when (`parse_append`).
-/

set_option autoImplicit false

namespace PulseForge.Foundation

variable {α ι : Type}

/-- What stands at the front of a string. -/
inductive Front (α ι : Type) where
  | item (i : ι) (rest : List α)
  | more
  | bad
deriving Repr, DecidableEq

/-- The items of a stream, what follows them, and whether it can never become an item. -/
structure Parsed (α ι : Type) where
  items : List ι
  rest : List α
  bad : Bool
deriving Repr, DecidableEq

/-- Take items off the front. -/
def parseLoop (front : List α → Front α ι) : ℕ → List α → Parsed α ι
  | 0, bs => ⟨[], bs, false⟩
  | fuel + 1, bs =>
    match front bs with
    | .item i rest =>
      let tail := parseLoop front fuel rest
      { tail with items := i :: tail.items }
    | .more => ⟨[], bs, false⟩
    | .bad => ⟨[], bs, true⟩

/-- An item takes at least one byte, so the length of the stream is fuel enough. -/
def parse (front : List α → Front α ι) (bs : List α) : Parsed α ι :=
  parseLoop front (bs.length + 1) bs

/-- Items take bytes, and neither they nor errors change as more arrives. -/
structure Incremental (front : List α → Front α ι) : Prop where
  shrinks : ∀ {bs i rest}, front bs = .item i rest → rest.length < bs.length
  item_append : ∀ {bs i rest} (more : List α), front bs = .item i rest →
    front (bs ++ more) = .item i (rest ++ more)
  bad_append : ∀ {bs} (more : List α), front bs = .bad → front (bs ++ more) = .bad

variable {front : List α → Front α ι} {bs rest : List α} {i : ι}

/-- Nothing is complete yet. -/
theorem parse_more (h : front bs = .more) : parse front bs = ⟨[], bs, false⟩ := by
  rw [parse, parseLoop, h]

/-- The front can never be completed. -/
theorem parse_bad (h : front bs = .bad) : parse front bs = ⟨[], bs, true⟩ := by
  rw [parse, parseLoop, h]

namespace Incremental

variable (hf : Incremental front)

include hf

/-- Fuel that is enough gives the same as more of it. -/
theorem parseLoop_eq {fuel fuel' : ℕ} (h : bs.length < fuel) (h' : bs.length < fuel') :
    parseLoop front fuel bs = parseLoop front fuel' bs := by
  induction fuel generalizing fuel' bs with
  | zero => omega
  | succ fuel ih =>
    cases fuel' with
    | zero => omega
    | succ fuel' =>
      rw [parseLoop, parseLoop]
      cases hfront : front bs with
      | more => rfl
      | bad => rfl
      | item i rest =>
        have hlt := hf.shrinks hfront
        dsimp only
        rw [ih (by omega) (show rest.length < fuel' by omega)]

/-- **The first item**, then the rest. -/
theorem parse_item (h : front bs = .item i rest) :
    parse front bs =
      { parse front rest with items := i :: (parse front rest).items } := by
  have hlt := hf.shrinks h
  rw [parse, parseLoop, h]
  dsimp only
  rw [hf.parseLoop_eq hlt (Nat.lt_succ_self _), ← parse]

/-- What is left is no item. -/
theorem front_rest (bs : List α) :
    front (parse front bs).rest = if (parse front bs).bad then .bad else .more := by
  induction hn : bs.length using Nat.strong_induction_on generalizing bs with
  | _ n ih =>
    subst hn
    cases hfront : front bs with
    | more => simp [parse_more hfront, hfront]
    | bad => simp [parse_bad hfront, hfront]
    | item i rest =>
      rw [hf.parse_item hfront]
      exact ih _ (hf.shrinks hfront) rest rfl

/-- **More arrives**: the items found so far stay, and what was left is parsed again with it.
A stream that went bad stays bad. -/
theorem parse_append (bs more : List α) :
    parse front (bs ++ more) =
      if (parse front bs).bad then ⟨(parse front bs).items, (parse front bs).rest ++ more, true⟩
      else
        { parse front ((parse front bs).rest ++ more) with
          items := (parse front bs).items ++
            (parse front ((parse front bs).rest ++ more)).items } := by
  induction hn : bs.length using Nat.strong_induction_on generalizing bs with
  | _ n ih =>
    subst hn
    cases hfront : front bs with
    | more => simp [parse_more hfront]
    | bad =>
      rw [parse_bad hfront, if_pos rfl, parse_bad (hf.bad_append more hfront)]
    | item i rest =>
      rw [hf.parse_item hfront, hf.parse_item (hf.item_append more hfront),
        ih _ (hf.shrinks hfront) rest rfl]
      split <;> rfl

end Incremental

end PulseForge.Foundation
