import Mathlib.Data.List.Chain

/-!
# Paths of a relation without cycles

A relation is `Acyclic` if no path of one or more of its steps comes back to where it began.
`Acyclic.insert` says when a new arrow keeps this.
-/

namespace OhosFfrt.Lib.Paths

open Relation

variable {α : Type*} {R S : α → α → Prop} {a b x y : α}

/-- **No path comes back.** -/
def Acyclic (R : α → α → Prop) : Prop := ∀ a, ¬ TransGen R a a

theorem acyclic_of_not (h : ∀ a b, ¬ R a b) : Acyclic R := by
  intro a hpath
  obtain ⟨b, hb, -⟩ := TransGen.head'_iff.mp hpath
  exact h a b hb

theorem Acyclic.mono (h : Acyclic S) (hle : ∀ a b, R a b → S a b) : Acyclic R := by
  intro a hpath
  exact h a (TransGen.mono hle _ _ hpath)

theorem path_insert (h : TransGen (fun x y => R x y ∨ x = a ∧ y = b) x y) :
    TransGen R x y ∨ ReflTransGen R x a ∧ ReflTransGen R b y := by
  induction h with
  | single hxy =>
    rcases hxy with hxy | ⟨rfl, rfl⟩
    · exact .inl (.single hxy)
    · exact .inr ⟨.refl, .refl⟩
  | tail _ hyz ih =>
    rcases ih with ih | ⟨hxa, hby⟩ <;> rcases hyz with hyz | ⟨rfl, rfl⟩
    · exact .inl (ih.tail hyz)
    · exact .inr ⟨ih.to_reflTransGen, .refl⟩
    · exact .inr ⟨hxa, hby.tail hyz⟩
    · exact .inr ⟨hxa, .refl⟩

theorem Acyclic.insert (h : Acyclic R) (hba : ¬ ReflTransGen R b a) :
    Acyclic fun x y => R x y ∨ x = a ∧ y = b := by
  intro x hpath
  rcases path_insert hpath with hx | ⟨hxa, hbx⟩
  · exact h x hx
  · exact hba (hbx.trans hxa)

theorem Acyclic.nodup (h : Acyclic R) {l : List α} (hl : l.IsChain R) : l.Nodup := by
  have hpaths : l.IsChain (TransGen R) := hl.imp fun _ _ hR => TransGen.single hR
  have hpair : l.Pairwise (TransGen R) := hpaths.pairwise
  refine hpair.imp ?_
  rintro a _ hpath rfl
  exact h a hpath

end OhosFfrt.Lib.Paths
