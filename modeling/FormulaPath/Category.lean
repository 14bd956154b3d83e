/-!
The kinds of things that a part of a path can name. Proposals are listed in the order of these
kinds, and editors know each kind by a number.
-/
namespace FormulaPath

inductive Category where
  | param
  | attr
  | assoc
  | qualifier
  | index
  | enumValue
  | enumClass
deriving DecidableEq, Repr

namespace Category

/-- The place of a kind in the order of proposals. -/
def rank : Category → Nat
  | param => 0
  | attr => 1
  | assoc => 2
  | qualifier => 3
  | index => 4
  | enumValue => 5
  | enumClass => 6

/-- The number of a completion of this kind in the language server protocol. -/
def protocolNumber : Category → Nat
  | param => 6
  | attr => 10
  | assoc => 5
  | qualifier => 12
  | index => 12
  | enumValue => 20
  | enumClass => 13

theorem rank_injective {a b : Category} (h : a.rank = b.rank) : a = b := by
  cases a <;> cases b <;> simp_all [rank]

end Category

end FormulaPath
