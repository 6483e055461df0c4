/-
# `Secdogie.Agent.AxTree` — the elements of an accessibility tree
-/
import Mathlib

namespace Secdogie.Agent

/-- `(left, top, right, bottom)` in screen pixels -/
structure Bounds where
  left : ℤ
  top : ℤ
  right : ℤ
  bottom : ℤ
deriving DecidableEq

/-- `AxElement`; the live content takes no part in what it is. -/
structure AxElement where
  role : String
  name : String
  automation_id : String
  bounds : Bounds
  /-- in the provider's walk, or -1 -/
  depth : ℤ := -1
  value : String := ""
  selected_text : String := ""
  table_cell : Option (ℤ × ℤ) := none
deriving DecidableEq

end Secdogie.Agent
