import Mathlib.Logic.Relation

/-! @scheme flooding | name:Items that spread over a graph | family:liveness

    Everybody who gets an item gives it to all of its neighbours that may lack it. At any time each item that
    somebody has is with its neighbours, or on its way to them, or still to be sent. When nothing is under way
    any more, an item that one has is with everybody that a path leads to.

        owes a k ──pays──▶ underway b k ──arrives──▶ has b k ──passes──▶ underway c k -/

namespace Schemes

/-- Who has which items, which are on their way to whom, and which somebody has yet to send. -/
structure Flood (α κ : Type) where
  has : α → κ → Prop
  underway : α → κ → Prop
  owes : α → κ → Prop

namespace Flood

variable {α κ : Type} (adj : α → α → Prop)

/-- Every neighbour has the item, or it is on its way there. -/
def Served (f : Flood α κ) (a : α) (k : κ) : Prop := ∀ b, adj a b → f.has b k ∨ f.underway b k

/-- INVARIANT: whoever has an item has yet to send it, or has served its neighbours. -/
def Covered (f : Flood α κ) : Prop := ∀ a k, f.has a k → f.owes a k ∨ f.Served adj a k

/-- What may happen in one step: nobody drops an item, nothing gets lost, a debt is paid to all neighbours,
    and whoever gets an item serves its neighbours or owes it to them. -/
structure Step (f f' : Flood α κ) : Prop where
  keeps : ∀ a k, f.has a k → f'.has a k
  arrives : ∀ b k, f.underway b k → f'.has b k ∨ f'.underway b k
  pays : ∀ a k, f.owes a k → f'.owes a k ∨ f'.Served adj a k
  passes : ∀ a k, f'.has a k → f.has a k ∨ f'.owes a k ∨ f'.Served adj a k

variable {adj} {f f' : Flood α κ} {a b : α} {k : κ}

theorem Served.step (hs : Step adj f f') (h : f.Served adj a k) : f'.Served adj a k := by
  intro b hab
  rcases h b hab with hhas | hway
  · exact Or.inl (hs.keeps b k hhas)
  · exact hs.arrives b k hway

theorem Covered.step (h : f.Covered adj) (hs : Step adj f f') : f'.Covered adj := by
  intro a k hhas
  rcases hs.passes a k hhas with hbefore | hnew
  · rcases h a k hbefore with howes | hserved
    · exact hs.pays a k howes
    · exact Or.inr (hserved.step hs)
  · exact hnew

/-- VERDICT: when nothing is owed to a neighbour or under way, an item goes wherever a path does. -/
theorem Covered.spreads (h : f.Covered adj) (howes : ∀ a b k, adj a b → ¬ f.owes a k) (hway : ∀ a k, ¬ f.underway a k)
    (hpath : Relation.ReflTransGen adj a b) (ha : f.has a k) : f.has b k := by
  induction hpath with
  | refl => exact ha
  | tail _ hadj ih =>
    have hserved := (h _ k ih).resolve_left (howes _ _ k hadj)
    exact (hserved _ hadj).resolve_right (hway _ k)

end Flood

end Schemes
