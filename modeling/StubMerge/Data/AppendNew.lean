/-!
# Appending what is new

`xs.appendNew ys` puts those items of `ys` behind `xs` that are not there yet, in the order in
which they are first seen. It keeps everything that `xs` has, and where.
-/

namespace List

/-- The items of `ys` that are new put behind `xs`, each once. -/
def appendNew {α : Type} [BEq α] (xs ys : List α) : List α :=
  ys.foldl (fun seen y => if seen.contains y then seen else seen ++ [y]) xs

@[simp] theorem appendNew_nil {α : Type} [BEq α] (xs : List α) : xs.appendNew [] = xs := rfl

theorem appendNew_cons {α : Type} [BEq α] (xs : List α) (y : α) (ys : List α) :
    xs.appendNew (y :: ys) = (if xs.contains y then xs else xs ++ [y]).appendNew ys := rfl

/-- What is there stays where it is. -/
theorem isPrefix_appendNew {α : Type} [BEq α] (xs ys : List α) :
    xs <+: xs.appendNew ys := by
  induction ys generalizing xs with
  | nil => exact List.prefix_rfl
  | cons y ys ih =>
    rw [appendNew_cons]
    split
    · exact ih xs
    · exact (List.prefix_append xs [y]).trans (ih _)

/-- An item is there afterwards if it was there or was put there. -/
theorem mem_appendNew {α : Type} [BEq α] [LawfulBEq α] {xs ys : List α} {a : α} :
    a ∈ xs.appendNew ys ↔ a ∈ xs ∨ a ∈ ys := by
  induction ys generalizing xs with
  | nil => simp
  | cons y ys ih =>
    rw [appendNew_cons, ih]
    split <;> simp_all <;> grind

end List
