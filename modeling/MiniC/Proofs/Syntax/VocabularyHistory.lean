import MiniC.Proofs.Syntax.Vocabulary

/-!
# The vocabulary is a set

Names of types and modifiers are added to a vocabulary one by one, in any order, repeatedly, and also
empty ones. Whatever the additions were, each of the two lists is `Canonical`: it holds the words
known from the start and the non-empty words that were added, each once, in one fixed order. A
canonical list is determined by its members (`Canonical.eq`), so the history of a vocabulary leaves
nothing behind but the sets of words (`addAll_canonical`).
-/

namespace MiniC.Vocabulary

/-- A word that is added to a vocabulary. -/
inductive Addition where
  | type (name : Bytes)
  | modifier (word : Bytes)
  deriving DecidableEq, Repr

/-- Does one addition. -/
def add (v : Vocabulary) : Addition → Vocabulary
  | .type name => v.addType name
  | .modifier word => v.addModifier word

/-- Does additions one after another. -/
def addAll (v : Vocabulary) (additions : List Addition) : Vocabulary := additions.foldl add v

/-- The list holds the seeds and the non-empty words of `added`, each once: longer words first, and
words of one length in byte order. -/
structure Canonical (seeds : List Bytes) (added : Bytes → Prop) (words : List Bytes) : Prop where
  ordered : words.Pairwise fun a b => b.length < a.length ∨ a.length = b.length ∧ a < b
  nodup : words.Nodup
  nonempty : [] ∉ words
  mem_iff : ∀ w, w ∈ words ↔ w ∈ seeds ∨ w ≠ [] ∧ added w

namespace Canonical

variable {seeds words words' : List Bytes} {added added' : Bytes → Prop}

theorem isOrdered (h : Canonical seeds added words) :
    WordSet.Ordered WordSet.longestFirst words :=
  h.ordered.imp WordSet.longestFirst_iff.2

/-- **A canonical list is determined by the sets it is made of.** -/
theorem eq (h : Canonical seeds added words) (h' : Canonical seeds added' words')
    (hadded : ∀ w, w ≠ [] → (added w ↔ added' w)) : words = words' := by
  refine h.isOrdered.eq_of_mem_iff WordSet.linear_longestFirst h'.isOrdered fun w => ?_
  rw [h.mem_iff, h'.mem_iff]
  exact or_congr_right (and_congr_right (hadded w))

theorem congr (h : Canonical seeds added words) (hadded : ∀ w, added w ↔ added' w) :
    Canonical seeds added' words :=
  ⟨h.ordered, h.nodup, h.nonempty, fun w => by rw [h.mem_iff, hadded]⟩

/-- The words known from the start. -/
theorem ofSeeds (hseeds : [] ∉ seeds) :
    Canonical seeds (fun _ => False) (seeds.foldl addWord []) := by
  have hordered := ordered_foldl_addWord List.Pairwise.nil seeds
  have hmem : ∀ w, w ∈ seeds.foldl addWord [] ↔ w ∈ seeds ∧ w ≠ [] := fun w => by
    rw [mem_foldl_addWord, or_iff_left List.not_mem_nil]
  refine ⟨hordered.imp WordSet.longestFirst_iff.1, hordered.nodup WordSet.linear_longestFirst,
    fun hnil => ((hmem _).1 hnil).2 rfl, fun w => ?_⟩
  rw [hmem, and_false, or_false, and_iff_left_iff_imp]
  rintro hw rfl
  exact hseeds hw

/-- **One more word** is put in its place, unless it is empty or there already. -/
theorem addWord (h : Canonical seeds added words) (name : Bytes) :
    Canonical seeds (fun w => added w ∨ w = name) (addWord words name) := by
  have hordered := ordered_addWord h.isOrdered name
  refine ⟨hordered.imp WordSet.longestFirst_iff.1, hordered.nodup WordSet.linear_longestFirst, ?_,
    fun w => ?_⟩
  · rw [mem_addWord]
    rintro (⟨-, hne⟩ | hin)
    · exact hne rfl
    · exact h.nonempty hin
  · rw [mem_addWord, h.mem_iff]
    tauto

end Canonical

/-! ### Histories -/

/-- Both lists of the vocabulary are canonical, with the words of the additions. -/
structure Reflects (additions : List Addition) (v : Vocabulary) : Prop where
  types : Canonical primitiveTypes (.type · ∈ additions) v.types
  modifiers : Canonical primitiveModifiers (.modifier · ∈ additions) v.modifiers

theorem reflects_initial : Reflects [] initial := by
  rw [initial, extend, foldl_addModifier, foldl_addType]
  exact ⟨(Canonical.ofSeeds (by decide)).congr (by simp),
    (Canonical.ofSeeds (by decide)).congr (by simp)⟩

namespace Reflects

variable {earlier : List Addition} {v : Vocabulary}

/-- One addition enlarges one of the lists and leaves the other alone. -/
theorem add (h : Reflects earlier v) (a : Addition) : Reflects (earlier ++ [a]) (v.add a) := by
  cases a with
  | type name => exact ⟨(h.types.addWord name).congr (by simp), h.modifiers.congr (by simp)⟩
  | modifier word => exact ⟨h.types.congr (by simp), (h.modifiers.addWord word).congr (by simp)⟩

theorem addAll (h : Reflects earlier v) (additions : List Addition) :
    Reflects (earlier ++ additions) (v.addAll additions) := by
  induction additions generalizing earlier v with
  | nil => rwa [List.append_nil]
  | cons a additions ih =>
    rw [List.append_cons]
    exact ih (h.add a)

end Reflects

/-- **The vocabulary is a canonical set.** After any additions to the initial vocabulary, the names of
types and the modifiers are in strict order, longer words first and words of one length in byte
order; no word is there twice, none is empty, and the words are those known from the start and the
non-empty ones that were added to that list. Additions of the same words, in whatever order and how
often, give the same vocabulary. -/
theorem addAll_canonical (additions : List Addition) :
    let v := initial.addAll additions
    Canonical primitiveTypes (.type · ∈ additions) v.types ∧
    Canonical primitiveModifiers (.modifier · ∈ additions) v.modifiers ∧
    ∀ others : List Addition,
      (∀ w, w ≠ [] → (.type w ∈ additions ↔ .type w ∈ others) ∧
        (.modifier w ∈ additions ↔ .modifier w ∈ others)) →
      initial.addAll others = v := by
  intro v
  have h : Reflects additions v := reflects_initial.addAll additions
  refine ⟨h.types, h.modifiers, fun others hsame => ?_⟩
  have h' : Reflects others (initial.addAll others) := reflects_initial.addAll others
  have htypes := h'.types.eq h.types fun w hw => (hsame w hw).1.symm
  have hmodifiers := h'.modifiers.eq h.modifiers fun w hw => (hsame w hw).2.symm
  exact congrArg₂ Vocabulary.mk htypes hmodifiers

/-- Order, repetition and an empty word make no difference. -/
theorem addAll_canonical_reordered :
    initial.addAll [.modifier (ascii "b"), .type (ascii "bb"), .type [], .type (ascii "a"),
        .type (ascii "bb")] =
      initial.addAll [.type (ascii "a"), .type (ascii "bb"), .modifier (ascii "b")] := by
  refine (addAll_canonical _).2.2 _ fun w hw => ?_
  simp only [List.mem_cons, List.not_mem_nil, Addition.type.injEq, Addition.modifier.injEq,
    reduceCtorEq, hw]
  tauto

end MiniC.Vocabulary
