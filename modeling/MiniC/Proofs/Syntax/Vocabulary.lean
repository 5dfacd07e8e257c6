import MiniC.Proofs.Syntax.WordSet
import MiniC.Syntax.Vocabulary
import MiniC.Text.ByteClass

/-!
# The vocabulary while a program is read

A program only adds types to the vocabulary, and their names are identifiers. The vocabularies that
come about in this way are `Grown`. Such a vocabulary is determined by the names of its types:
adding them all to the initial vocabulary gives it back (`Grown.extend_types`).
-/

namespace MiniC

/-- Every word of the vocabulary is an identifier. -/
def IdentifiersOnly (v : Vocabulary) : Prop := ∀ w ∈ v.modifiers ++ v.types, isWord w = true

instance (v : Vocabulary) : Decidable (IdentifiersOnly v) :=
  inferInstanceAs (Decidable (∀ w ∈ v.modifiers ++ v.types, isWord w = true))

theorem identifiersOnly_initial : IdentifiersOnly .initial := by decide

namespace Vocabulary

variable {v : Vocabulary} {w : Bytes}

/-! ### Adding words -/

theorem mem_addWord {words : List Bytes} {name : Bytes} :
    w ∈ addWord words name ↔ (w = name ∧ w ≠ []) ∨ w ∈ words := by
  rw [addWord]
  split_ifs with h
  · subst h
    tauto
  · rw [WordSet.mem_insert]
    constructor
    · rintro (rfl | hw)
      · exact .inl ⟨rfl, h⟩
      · exact .inr hw
    · rintro (⟨rfl, -⟩ | hw)
      · exact .inl rfl
      · exact .inr hw

theorem ordered_addWord {words : List Bytes} (h : WordSet.Ordered WordSet.longestFirst words)
    (name : Bytes) : WordSet.Ordered WordSet.longestFirst (addWord words name) := by
  rw [addWord]
  split_ifs
  · exact h
  · exact h.insert WordSet.linear_longestFirst

theorem mem_foldl_addWord (names : List Bytes) {words : List Bytes} :
    w ∈ names.foldl addWord words ↔ (w ∈ names ∧ w ≠ []) ∨ w ∈ words := by
  induction names generalizing words with
  | nil => simp
  | cons n names ih =>
    rw [List.foldl_cons, ih, mem_addWord, List.mem_cons]
    tauto

theorem ordered_foldl_addWord {words : List Bytes}
    (h : WordSet.Ordered WordSet.longestFirst words) (names : List Bytes) :
    WordSet.Ordered WordSet.longestFirst (names.foldl addWord words) := by
  induction names generalizing words with
  | nil => exact h
  | cons n names ih => exact ih (ordered_addWord h n)

theorem mem_types_addType {name : Bytes} :
    w ∈ (v.addType name).types ↔ (w = name ∧ w ≠ []) ∨ w ∈ v.types := mem_addWord

theorem ordered_addType (h : WordSet.Ordered WordSet.longestFirst v.types) (name : Bytes) :
    WordSet.Ordered WordSet.longestFirst (v.addType name).types := ordered_addWord h name

theorem foldl_addType (names : List Bytes) :
    names.foldl addType v = { v with types := names.foldl addWord v.types } := by
  induction names generalizing v with
  | nil => rfl
  | cons n names ih => rw [List.foldl_cons, ih]; rfl

theorem foldl_addModifier (words : List Bytes) :
    words.foldl addModifier v = { v with modifiers := words.foldl addWord v.modifiers } := by
  induction words generalizing v with
  | nil => rfl
  | cons n words ih => rw [List.foldl_cons, ih]; rfl

theorem modifiers_foldl_addType (names : List Bytes) :
    (names.foldl addType v).modifiers = v.modifiers := by rw [foldl_addType]

theorem mem_types_foldl_addType (names : List Bytes) :
    w ∈ (names.foldl addType v).types ↔ (w ∈ names ∧ w ≠ []) ∨ w ∈ v.types := by
  rw [foldl_addType]
  exact mem_foldl_addWord names

theorem ordered_foldl_addType (h : WordSet.Ordered WordSet.longestFirst v.types)
    (names : List Bytes) :
    WordSet.Ordered WordSet.longestFirst (names.foldl addType v).types := by
  rw [foldl_addType]
  exact ordered_foldl_addWord h names

/-! ### Vocabularies of programs -/

/-- The vocabulary comes from the initial one by adding identifiers as names of types. -/
structure Grown (v : Vocabulary) : Prop where
  identifiers : IdentifiersOnly v
  modifiers : v.modifiers = initial.modifiers
  types : ∀ w ∈ initial.types, w ∈ v.types
  ordered : WordSet.Ordered WordSet.longestFirst v.types

theorem grown_initial : Grown initial where
  identifiers := identifiersOnly_initial
  modifiers := rfl
  types := fun _ h => h
  ordered := by decide

theorem Grown.addType (h : Grown v) {name : Bytes} (hn : isWord name = true) :
    Grown (v.addType name) where
  identifiers := by
    intro w hw
    rcases List.mem_append.mp hw with hw | hw
    · exact h.identifiers w (List.mem_append_left _ hw)
    · rcases mem_types_addType.mp hw with ⟨rfl, -⟩ | hw
      · exact hn
      · exact h.identifiers w (List.mem_append_right _ hw)
  modifiers := h.modifiers
  types := fun w hw => mem_types_addType.mpr (.inr (h.types w hw))
  ordered := ordered_addType h.ordered name

theorem extend_nil (v : Vocabulary) : v.extend [] [] = v := rfl

/-- **The names of its types give a vocabulary back.** -/
theorem Grown.extend_types (h : Grown v) : initial.extend v.types [] = v := by
  have hmem : ∀ w, w ∈ (v.types.foldl Vocabulary.addType initial).types ↔ w ∈ v.types := by
    intro w
    rw [mem_types_foldl_addType]
    constructor
    · rintro (⟨hw, -⟩ | hw)
      · exact hw
      · exact h.types w hw
    · intro hw
      refine .inl ⟨hw, fun h₀ => ?_⟩
      have hword := h.identifiers w (List.mem_append_right _ hw)
      rw [h₀] at hword
      cases hword
  have htypes : (v.types.foldl Vocabulary.addType initial).types = v.types :=
    (ordered_foldl_addType grown_initial.ordered _).eq_of_mem_iff WordSet.linear_longestFirst
      h.ordered hmem
  have hmods : (v.types.foldl Vocabulary.addType initial).modifiers = v.modifiers :=
    (modifiers_foldl_addType _).trans h.modifiers.symm
  have hextend : initial.extend v.types [] = v.types.foldl Vocabulary.addType initial := rfl
  rw [hextend]
  obtain ⟨types, modifiers⟩ := v
  exact Vocabulary.mk.injEq .. ▸ ⟨htypes, hmods⟩

end Vocabulary

end MiniC
