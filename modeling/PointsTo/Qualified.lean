import PointsTo.Table

/-!
# Things seen in a context

A context-sensitive analysis tells apart copies of a method, a call site or an object by a context
`C`. With the one-element type for `C` the copies are the things themselves, and the analysis is
context-insensitive.
-/

namespace PointsTo

/-- Types whose members serve as contexts. -/
class Contextual (C : Type) extends Coded C where
  decEq : DecidableEq C
  /-- What stands in front of a method's signature to tell its copies apart. -/
  mark : C → String

instance (priority := low) {C : Type} [h : Contextual C] : DecidableEq C := h.decEq

instance : Contextual Unit where
  decEq := inferInstance
  mark _ := ""

instance : Contextual ContextId where
  decEq := inferInstance
  mark c := c.text ++ ":"

/-- A thing of kind `e` as seen in the context `ctx`. -/
structure Qualified (C : Type) (e : Entity) where
  ctx : C
  id : Id e
  deriving DecidableEq, Repr

namespace Qualified

variable {C : Type} [Contextual C] {e : Entity}

instance : Coded (Qualified C e) where
  code q := q.id.index :: Coded.code q.ctx
  code_inj {a b} h := by
    obtain ⟨c, i⟩ := a
    obtain ⟨d, j⟩ := b
    simp only [List.cons.injEq, Id.index_inj] at h
    rw [h.1, Coded.code_inj h.2]

/-- Ordered by context, then by number. -/
def le (a b : Qualified C e) : Bool :=
  (compare (Coded.code a.ctx ++ [a.id.index]) (Coded.code b.ctx ++ [b.id.index])).isLE

end Qualified

/-- A method under a calling context. -/
abbrev MethodIn (C : Type) := Qualified C .method

/-- A call site under the context of its caller. -/
abbrev SiteIn (C : Type) := Qualified C .callSite

/-- An object under the heap context of its allocation. -/
abbrev CsObject := Qualified ContextId .object

end PointsTo
