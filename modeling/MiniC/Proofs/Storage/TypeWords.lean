import Mathlib.Data.Finset.Basic
import Mathlib.Data.Finset.Dedup
import MiniC.Proofs.Syntax.WordSet
import MiniC.Storage.Layout

/-!
# The layout of a type depends on the set of its words

`keyOfWords_eq_iff`: two collections of words have the same key exactly if they have the same words
apart from qualifiers, since the words of a key can be read back from it. The table of layouts is
made of keys, so a type has a layout exactly if its set of words is one of the eighteen of the
table, and the set says which one (`resolve_typeWords`).
-/

namespace MiniC.Layout

/-! ### Keys -/

/-- A word that can stand in a key. -/
def IsTypeWord (w : Bytes) : Prop := w ≠ [] ∧ ch ' ' ∉ w

instance (w : Bytes) : Decidable (IsTypeWord w) := inferInstanceAs (Decidable (_ ∧ _))

/-- Words with spaces between them can be told apart. -/
theorem join_injective {l l' : List Bytes} (hl : ∀ w ∈ l, IsTypeWord w)
    (hl' : ∀ w ∈ l', IsTypeWord w) (h : Bytes.join [ch ' '] l = Bytes.join [ch ' '] l') :
    l = l' := by
  have hsplit : ∀ {ws : List Bytes}, (∀ w ∈ ws, IsTypeWord w) → ws ≠ [] →
      (Bytes.join [ch ' '] ws).splitOn (ch ' ') = ws :=
    fun hws => List.splitOn_intercalate (ch ' ') fun w hw => (hws w hw).2
  -- splitting the empty text gives the empty word, never no word
  have hnil : ∀ {ws : List Bytes}, (∀ w ∈ ws, IsTypeWord w) →
      Bytes.join [ch ' '] ws = [] → ws = [] := by
    intro ws hws h₀
    by_contra hne
    have hempty := hsplit hws hne
    rw [h₀] at hempty
    exact (hws [] (by rw [← hempty]; exact List.mem_singleton_self [])).1 rfl
  by_cases hne : l = []
  · subst hne
    exact (hnil hl' h.symm).symm
  · have hne' : l' ≠ [] := by
      rintro rfl
      exact hne (hnil hl h)
    rw [← hsplit hl hne, h, hsplit hl' hne']

/-- The words that make a difference to the layout. -/
def significant (words : List Bytes) : Finset Bytes := words.toFinset \ qualifiers.toFinset

theorem mem_significant {words : List Bytes} {w : Bytes} :
    w ∈ significant words ↔ w ∈ words.filter fun w => !qualifiers.contains w := by
  simp [significant]

/-- **A key stands for a set of words.** -/
theorem keyOfWords_eq_iff {l l' : List Bytes} (hl : ∀ w ∈ l, IsTypeWord w)
    (hl' : ∀ w ∈ l', IsTypeWord w) :
    keyOfWords l = keyOfWords l' ↔ significant l = significant l' := by
  have hwords : ∀ {ws : List Bytes}, (∀ w ∈ ws, IsTypeWord w) →
      ∀ w ∈ WordSet.ofList WordSet.alphabetic (ws.filter fun w => !qualifiers.contains w),
        IsTypeWord w :=
    fun hws w hw => hws w (List.mem_of_mem_filter (WordSet.mem_ofList.mp hw))
  have hset : significant l = significant l' ↔
      ∀ w, w ∈ l.filter (fun w => !qualifiers.contains w) ↔
        w ∈ l'.filter fun w => !qualifiers.contains w := by
    simp only [Finset.ext_iff, mem_significant]
  rw [hset, ← WordSet.ofList_eq_iff WordSet.linear_alphabetic]
  exact ⟨join_injective (hwords hl) (hwords hl'), congrArg (Bytes.join [ch ' '])⟩

/-! ### The table -/

/-- The words for the sign of a type. -/
def signWords : List (List Bytes × Signedness) :=
  [([], .signed), ([ascii "signed"], .signed), ([ascii "unsigned"], .unsigned)]

theorem mem_table_iff {l : Layout} : l ∈ table ↔
    ∃ base ∈ baseTypes, ∃ s ∈ signWords, l = ⟨keyOfWords (s.1 ++ base.1), ⟨base.2, s.2⟩⟩ := by
  simp only [table, List.mem_flatMap, ofBaseType, signWords, List.mem_cons, List.not_mem_nil,
    or_false, exists_eq_or_imp, exists_eq_left, List.nil_append, List.singleton_append]

theorem nodup_keys : (table.map key).Nodup := by decide +kernel

theorem resolve_eq_ok_iff {modifiers : List Bytes} {name : Bytes} {l : Layout} :
    resolve modifiers name = .ok l ↔ l ∈ table ∧ l.key = keyOf modifiers name := by
  unfold resolve
  dsimp only
  cases hfind : table.find? fun l => l.key = keyOf modifiers name with
  | none =>
    refine ⟨fun h => (by cases h), fun h => ?_⟩
    exact absurd (decide_eq_true h.2) (List.find?_eq_none.mp hfind l h.1)
  | some found =>
    have hmem := List.mem_of_find?_eq_some hfind
    have hkey : found.key = keyOf modifiers name := by simpa using List.find?_some hfind
    constructor
    · intro h
      cases h
      exact ⟨hmem, hkey⟩
    · rintro ⟨hl, hlkey⟩
      rw [List.inj_on_of_nodup_map nodup_keys hmem hl (hkey.trans hlkey.symm)]

/-! ### The words of a type -/

/-- The words of a type are not empty, apart from its name, and have no spaces. -/
structure Worded (modifiers : List Bytes) (name : Bytes) : Prop where
  ne_nil : ∀ w ∈ modifiers, w ≠ []
  spaceless : ∀ w ∈ name :: modifiers, ch ' ' ∉ w

/-- The set of the words of a type that make a difference to its layout; an empty name is none. -/
def typeWords (modifiers : List Bytes) (name : Bytes) : Finset Bytes :=
  (name :: modifiers).toFinset.erase [] \ qualifiers.toFinset

variable {modifiers modifiers' : List Bytes} {name name' : Bytes}

theorem Worded.isTypeWord (h : Worded modifiers name) :
    ∀ w ∈ words modifiers name, IsTypeWord w := by
  intro w hw
  unfold words at hw
  split_ifs at hw with hname
  · exact ⟨h.ne_nil w hw, h.spaceless w (List.mem_cons_of_mem _ hw)⟩
  · rcases List.mem_append.mp hw with hw | hw
    · exact ⟨h.ne_nil w hw, h.spaceless w (List.mem_cons_of_mem _ hw)⟩
    · rw [List.mem_singleton.mp hw]
      exact ⟨hname, h.spaceless name List.mem_cons_self⟩

theorem Worded.significant_words (h : Worded modifiers name) :
    significant (words modifiers name) = typeWords modifiers name := by
  have hne : [] ∉ modifiers := fun hmem => h.ne_nil [] hmem rfl
  rw [significant, typeWords, words]
  congr 1
  by_cases hname : name = []
  · rw [if_pos hname, hname, List.toFinset_cons, Finset.erase_insert (by simpa using hne)]
  · rw [if_neg hname, Finset.erase_eq_of_notMem (by simp [hne, Ne.symm hname])]
    ext w
    rw [List.mem_toFinset, List.mem_append, List.mem_singleton, List.mem_toFinset, List.mem_cons,
      or_comm]

theorem keyOf_eq_iff (h : Worded modifiers name) (h' : Worded modifiers' name') :
    keyOf modifiers name = keyOf modifiers' name' ↔
      typeWords modifiers name = typeWords modifiers' name' := by
  rw [← h.significant_words, ← h'.significant_words]
  exact keyOfWords_eq_iff h.isTypeWord h'.isTypeWord

/-- **The layouts of a type with a given set of words.** -/
theorem resolve_iff_typeWords (h : Worded modifiers name) {l : Layout} :
    resolve modifiers name = .ok l ↔
      ∃ base ∈ baseTypes, ∃ s ∈ signWords,
        typeWords modifiers name = base.1.toFinset ∪ s.1.toFinset ∧
        l = ⟨keyOf modifiers name, ⟨base.2, s.2⟩⟩ := by
  have hwords : ∀ base ∈ baseTypes, ∀ s ∈ signWords, ∀ w ∈ s.1 ++ base.1, IsTypeWord w := by
    decide +kernel
  have hset : ∀ base ∈ baseTypes, ∀ s ∈ signWords,
      significant (s.1 ++ base.1) = base.1.toFinset ∪ s.1.toFinset := by
    decide +kernel
  have hkey : ∀ base ∈ baseTypes, ∀ s ∈ signWords,
      (keyOfWords (s.1 ++ base.1) = keyOf modifiers name ↔
        typeWords modifiers name = base.1.toFinset ∪ s.1.toFinset) := by
    intro base hbase s hs
    rw [← hset base hbase s hs, ← h.significant_words, eq_comm]
    exact keyOfWords_eq_iff h.isTypeWord (hwords base hbase s hs)
  rw [resolve_eq_ok_iff, mem_table_iff]
  constructor
  · rintro ⟨⟨base, hbase, s, hs, rfl⟩, hk⟩
    refine ⟨base, hbase, s, hs, (hkey base hbase s hs).mp hk, ?_⟩
    rw [← hk]
  · rintro ⟨base, hbase, s, hs, hw, rfl⟩
    have hk := (hkey base hbase s hs).mpr hw
    exact ⟨⟨base, hbase, s, hs, by rw [hk]⟩, rfl⟩

/-- The sets of words for the size of an integer. -/
def sizeSets : List (Finset Bytes) :=
  [{ascii "char"}, {ascii "short"}, {ascii "short", ascii "int"}, {ascii "int"}, {ascii "long"},
    {ascii "long", ascii "int"}]

/-- The sets of words for the sign of an integer. -/
def signSets : List (Finset Bytes) := [∅, {ascii "signed"}, {ascii "unsigned"}]

theorem sizeSets_eq : sizeSets = baseTypes.map fun base => base.1.toFinset := by decide +kernel

theorem signSets_eq : signSets = signWords.map fun s => s.1.toFinset := by decide +kernel

theorem bytes_of_mem_baseTypes : ∀ base ∈ baseTypes, base.2.bytes =
    if base.1.toFinset = {ascii "char"} then 1
    else if ascii "short" ∈ base.1.toFinset then 2 else 4 := by
  decide +kernel

theorem sign_of_mem_signWords : ∀ base ∈ baseTypes, ∀ s ∈ signWords,
    (s.2 = .unsigned ↔ ascii "unsigned" ∈ base.1.toFinset ∪ s.1.toFinset) := by
  decide +kernel

/-- **Layouts and sets of words.** Types have the same key exactly if their words are the same,
apart from order, repetition and qualifiers. The types with a layout are those whose words name a
size, and perhaps a sign, and the layout is the one of that size and sign. -/
theorem resolve_typeWords (h : Worded modifiers name) (h' : Worded modifiers' name') :
    (keyOf modifiers name = keyOf modifiers' name' ↔
      typeWords modifiers name = typeWords modifiers' name') ∧
    ((∃ l, resolve modifiers name = .ok l) ↔
      ∃ B ∈ sizeSets, ∃ S ∈ signSets, typeWords modifiers name = B ∪ S) ∧
    ∀ B ∈ sizeSets, ∀ S ∈ signSets, typeWords modifiers name = B ∪ S →
      ∀ l, resolve modifiers name = .ok l →
        l.type.width =
          (if B = {ascii "char"} then 1 else if ascii "short" ∈ B then 2 else 4) ∧
        (l.type.sign = .unsigned ↔ ascii "unsigned" ∈ typeWords modifiers name) ∧
        l.size = l.type.width ∧ l.key = keyOf modifiers name := by
  simp only [sizeSets_eq, signSets_eq, List.mem_map, exists_exists_and_eq_and,
    forall_exists_index, and_imp, forall_apply_eq_imp_iff₂]
  refine ⟨keyOf_eq_iff h h', ⟨?_, ?_⟩, ?_⟩
  · rintro ⟨l, hl⟩
    obtain ⟨base, hbase, s, hs, hw, -⟩ := (resolve_iff_typeWords h).mp hl
    exact ⟨base, hbase, s, hs, hw⟩
  · rintro ⟨base, hbase, s, hs, hw⟩
    exact ⟨_, (resolve_iff_typeWords h).mpr ⟨base, hbase, s, hs, hw, rfl⟩⟩
  · intro base hbase s hs hw l hl
    rw [(resolve_iff_typeWords h).mpr ⟨base, hbase, s, hs, hw, rfl⟩] at hl
    cases hl
    refine ⟨bytes_of_mem_baseTypes base hbase, ?_, rfl, rfl⟩
    rw [hw]
    exact sign_of_mem_signWords base hbase s hs

/-- The same type in two ways: other words first, one of them twice, and other qualifiers. -/
theorem resolve_typeWords_unsigned :
    let m := ["const", "unsigned", "long", "unsigned"].map ascii
    let m' := ["int", "long", "volatile"].map ascii
    Worded m (ascii "int") ∧ Worded m' (ascii "unsigned") ∧
      keyOf m (ascii "int") = keyOf m' (ascii "unsigned") ∧
      ∃ l, resolve m (ascii "int") = .ok l ∧ l.type.width = 4 ∧ l.type.sign = .unsigned := by
  intro m m'
  have h : Worded m (ascii "int") := ⟨by decide, by decide⟩
  have h' : Worded m' (ascii "unsigned") := ⟨by decide, by decide⟩
  obtain ⟨hkey, hresolve, hlayout⟩ := resolve_typeWords h h'
  have hB : {ascii "long", ascii "int"} ∈ sizeSets := by decide
  have hS : {ascii "unsigned"} ∈ signSets := by decide
  have hw : typeWords m (ascii "int") = {ascii "long", ascii "int"} ∪ {ascii "unsigned"} := by
    decide +kernel
  obtain ⟨l, hl⟩ := hresolve.mpr ⟨_, hB, _, hS, hw⟩
  obtain ⟨hwidth, hsign, -⟩ := hlayout _ hB _ hS hw l hl
  exact ⟨h, h', hkey.mpr (by decide +kernel), l, hl, hwidth, hsign.mpr (by decide +kernel)⟩

end MiniC.Layout
