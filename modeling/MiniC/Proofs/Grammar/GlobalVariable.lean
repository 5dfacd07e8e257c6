import MiniC.Macro.Table
import MiniC.Proofs.Grammar.Declarator
import MiniC.Proofs.Storage.Sequential

/-!
# Declarations of global variables

A `Global` is a declaration `m₁ … mₖ b *…* name;` or `m₁ … mₖ b *…* name = literal;` of a variable
with an integer or pointer type. `parseProgram_globals`: the text of such declarations, one a line,
is read as definitions that ask for the slots of the declarations, in order.
-/

namespace MiniC

/-! ### Declarations -/

/-- How a whole number is written. -/
inductive Radix where
  | decimal
  | hexadecimal

namespace Radix

/-- What stands in front of the digits. -/
def mark : Radix → Bytes
  | .decimal => []
  | .hexadecimal => ascii "0x"

def isDigit : Radix → UInt8 → Bool
  | .decimal => MiniC.isDigit
  | .hexadecimal => isHexDigit

/-- The number that digits stand for. -/
def value : Radix → Bytes → Nat
  | .decimal => digitsValue
  | .hexadecimal => hexDigitsValue

end Radix

/-- A whole number that is a floating-point value exactly. -/
structure Literal where
  radix : Radix
  digits : Bytes
  digits_ne : digits ≠ []
  isDigit : ∀ b ∈ digits, radix.isDigit b = true
  value_lt : radix.value digits < 2 ^ 53

namespace Literal

def text (l : Literal) : Bytes := l.radix.mark ++ l.digits

def value (l : Literal) : Nat := l.radix.value l.digits

end Literal

/-- The words in front of the base type of a declaration. -/
def modifierWords : List Bytes := ["const", "signed", "unsigned", "short", "long"].map ascii

/-- The base types of a declaration. -/
def baseWords : List Bytes := ["char", "short", "int", "long"].map ascii

/-- The declaration of a global variable with an integer or pointer type. -/
structure Global where
  modifiers : List Bytes
  base : Bytes
  /-- One member for each star: whether a space stands behind it. -/
  stars : List Bool
  name : Bytes
  literal : Option Literal
  modifiers_mem : ∀ m ∈ modifiers, m ∈ modifierWords
  base_mem : base ∈ baseWords
  isWord_name : isWord name = true
  name_not_mem : name ∉ Vocabulary.primitiveTypes ++ Vocabulary.primitiveModifiers
  name_not_macro : name ∉ Macro.Table.builtins.map Prod.fst
  resolves : stars = [] → (Layout.resolve modifiers base).isOk = true

namespace Global

/-- The text of a star. -/
def starText (spaced : Bool) : Bytes := ch '*' :: if spaced then [ch ' '] else []

/-- The text of the initial value, if there is one. -/
def valueText : Option Literal → Bytes
  | none => []
  | some l => ascii " = " ++ l.text

/-- The text behind the words of the type. -/
def tailText (g : Global) : Bytes :=
  g.stars.flatMap starText ++ (g.name ++ (valueText g.literal ++ [ch ';']))

/-- The text of a declaration. -/
def text (g : Global) : Bytes :=
  (g.modifiers ++ [g.base]).flatMap (fun w => w ++ [ch ' ']) ++ g.tailText

/-- Declarations, one a line. -/
def source (gs : List Global) : Bytes := Bytes.join [0x0a] (gs.map text)

/-- The layout of the variable: that of its words, or of a pointer if there is a star. -/
def layout (g : Global) : Layout :=
  if g.stars = [] then
    match Layout.resolve g.modifiers g.base with
    | .ok l => l
    | .error _ => Layout.pointer
  else Layout.pointer

/-- The variable that is declared. -/
def slot (g : Global) : Storage.Slot := ⟨g.name, g.layout, g.literal.map Literal.value⟩

end Global

namespace Grammar

open MiniC.Parser MiniC.Scan

/-! ### Declarators -/

/-- A star makes a type a pointer, whatever its target is. -/
theorem ofType_pointers (t : TypeDesc) (ps : List Position) :
    Layout.ofType (ps.foldl .pointer t) =
      if ps = [] then Layout.ofType t else .ok Layout.pointer := by
  induction ps generalizing t with
  | nil => rfl
  | cons p ps ih =>
    rw [List.foldl_cons, ih, if_neg (List.cons_ne_nil _ _)]
    split_ifs <;> rfl

theorem isStar_starText (spaced : Bool) : IsStar (Global.starText spaced) := by
  cases spaced with
  | true => exact .inr rfl
  | false => exact .inl rfl

/-! ### Initial values -/

section InitialValue
variable {v : Vocabulary} {k : Bytes}

theorem isDigit_head (l : Literal) (r : Bytes) : (l.text ++ r).head?.any isDigit = true := by
  obtain ⟨radix, digits, hne, hdigit, hlt⟩ := l
  cases radix with
  | hexadecimal => rfl
  | decimal =>
    cases digits with
    | nil => exact absurd rfl hne
    | cons b digits => exact hdigit b List.mem_cons_self

theorem takeWhile_digits {p : UInt8 → Bool} {digits : Bytes} (hd : ∀ b ∈ digits, p b = true)
    (hp : p (ch ';') = false) :
    (digits ++ ch ';' :: k).takeWhile p = digits ∧
      (digits ++ ch ';' :: k).dropWhile p = ch ';' :: k := by
  rw [List.takeWhile_append_of_pos hd, List.dropWhile_append_of_pos hd]
  simp [hp]

theorem numberFrom_some (m : Nat) (reported digits : Bytes) (x : Binary64) :
    Lexeme.numberFrom m reported digits (ch ';' :: k) (some x) = ⟨m + digits.length, .ok x⟩ :=
  rfl

/-- **The reader of numbers takes the whole literal** and finds its value. -/
theorem number_literal (l : Literal) (k : Bytes) :
    ∃ x, Lexeme.number (l.text ++ ch ';' :: k) = ⟨l.text.length, .ok x⟩ ∧ x.Exact l.value := by
  have hhead := isDigit_head l (ch ';' :: k)
  obtain ⟨radix, digits, hne, hdigit, hlt⟩ := l
  cases radix with
  | decimal =>
    obtain ⟨x, hx, hexact⟩ := finite?_digits hne hdigit hlt
    have hhex : Lexeme.isHexNumber (digits ++ ch ';' :: k) = false := by
      match digits with
      | [b] => exact Bool.and_false _
      | b :: c :: digits =>
        have hc : isDigit c = true := hdigit c (by simp)
        have hx : (c == ch 'x' || c == ch 'X') = false := by
          rw [← Bool.not_eq_true, Bool.or_eq_true, beq_iff_eq, beq_iff_eq]
          rintro (rfl | rfl) <;> cases hc
        simp [Lexeme.isHexNumber, hx]
    have hdecimal : ∀ b ∈ digits, Lexeme.isDecimalPart b = true := by
      intro b hb
      have : isDigit b = true := hdigit b hb
      rw [Lexeme.isDecimalPart, this, Bool.true_or]
    obtain ⟨htake, hdrop⟩ := takeWhile_digits (k := k) hdecimal (by decide)
    refine ⟨x, ?_, hexact⟩
    rw [Literal.text, Radix.mark, List.nil_append] at hhead ⊢
    simp only [Lexeme.number, hhead, hhex, htake, hdrop, hx, numberFrom_some, Bool.not_true,
      Bool.false_eq_true, if_false, Nat.zero_add]
  | hexadecimal =>
    obtain ⟨x, hx, hexact⟩ := hexNumber?_digits hne hlt
    obtain ⟨htake, hdrop⟩ := takeWhile_digits (k := k) hdigit (by decide)
    refine ⟨x, ?_, hexact⟩
    have htext : Literal.text ⟨.hexadecimal, digits, hne, hdigit, hlt⟩ ++ ch ';' :: k =
        ch '0' :: ch 'x' :: (digits ++ ch ';' :: k) := rfl
    have hhex : Lexeme.isHexNumber (ch '0' :: ch 'x' :: (digits ++ ch ';' :: k)) = true := rfl
    rw [htext] at hhead ⊢
    simp only [Radix.isDigit] at htake hdrop
    simp only [Lexeme.number, hhead, hhex, List.drop_succ_cons, List.drop_zero, htake, hdrop, hx,
      numberFrom_some, Bool.not_true, Bool.false_eq_true, if_false, if_true]
    rw [Nat.add_comm]
    rfl

/-- A literal is an expression in front of a semicolon. -/
theorem requiredExpression_literal (l : Literal) :
    Reads v requiredExpression (l.text ++ ch ';' :: k)
      (fun e => ∃ x p, e = .number x p ∧ x.Exact l.value) (ch ';' :: k) := by
  obtain ⟨x, hlex, hexact⟩ := number_literal l k
  have hhead := isDigit_head l (ch ';' :: k)
  have hends : Ends (ch ';' :: k) := ends_cons k rfl
  have hrest : (l.text ++ ch ';' :: k).drop l.text.length = ch ';' :: k := List.drop_left
  refine requiredWith_single hends (budget_reads.bind fun n hn => ?_)
  cases n with
  | nil => cases hn
  | cons b n =>
    refine operandStep_reads (Q := fun e => ∃ p, e = .number x p) (t := ch ';' :: k)
      (firstAccepted_misses fun op _ => ?_) (fun p => ?_) ?_
    · cases op <;> exact leads_of_class (by decide) hhead
    · have hnum : Reads v (primary (operandWithin n) p) _ _ _ :=
        primary_number hhead hlex (by rw [hrest]; exact hends.settled)
      rw [hrest] at hnum
      exact hnum.mono fun o ho => ⟨_, ho, p, rfl⟩
    · rintro e ⟨p, rfl⟩
      refine (suffixes_stop hends.toFollows).mono ?_
      rintro e rfl
      exact ⟨x, p, rfl, hexact⟩

theorem initialValue_reads (l? : Option Literal) (hk : Settled (k.dropWhile isSpace)) :
    Reads v initialValue ((Global.valueText l? ++ ch ';' :: k).dropWhile isSpace)
      (fun e? => Storage.Initializes (l?.map Literal.value) e?) (k.dropWhile isSpace) := by
  rw [initialValue]
  cases l? with
  | none =>
    refine (accept_misses (w := ascii "=") rfl).bind_false ?_
    refine (expect_reads (w := ascii ";") rfl (fun hw => by cases hw) hk).bind fun _ _ => ?_
    exact Reads.pure trivial
  | some l =>
    have hsolid : (l.text ++ ch ';' :: k).head?.any isSolid = true :=
      head_any_mono (isDigit_head l _) fun b hb => isSolid_of_isIdent b (isIdent_of_isDigit hb)
    have htext : (Global.valueText (some l) ++ ch ';' :: k).dropWhile isSpace =
        ascii "=" ++ ch ' ' :: (l.text ++ ch ';' :: k) := by
      rw [Global.valueText, List.append_assoc]
      rfl
    rw [htext]
    refine (accept_spaced hsolid).bind_true ?_
    refine (requiredExpression_literal l).bind ?_
    rintro e ⟨x, p, rfl, hexact⟩
    refine (expect_reads (w := ascii ";") rfl (fun hw => by cases hw) hk).bind fun _ _ => ?_
    exact Reads.pure hexact

end InitialValue

/-! ### Definitions -/

section Definition
variable (g : Global) {k : Bytes}

/-- The layout of the declared type is known. -/
theorem layout_eq :
    (if g.stars = [] then Layout.resolve g.modifiers g.base else .ok Layout.pointer) =
      .ok g.layout := by
  rw [Global.layout]
  split_ifs with h
  · have hok := g.resolves h
    cases hr : Layout.resolve g.modifiers g.base with
    | ok l => rfl
    | error e => rw [hr] at hok; cases hok
  · rfl

theorem text_append (k : Bytes) :
    g.text ++ k = wordsText (g.modifiers ++ [g.base]) (g.tailText ++ k) := by
  rw [Global.text, wordsText, List.append_assoc]

theorem tailText_append (k : Bytes) :
    g.tailText ++ k = (g.stars.map Global.starText).flatten ++
      (g.name ++ (Global.valueText g.literal ++ ch ';' :: k)) := by
  simp [Global.tailText, List.flatMap_def]

theorem edge_valueText (l? : Option Literal) (k : Bytes) :
    (Global.valueText l? ++ ch ';' :: k).head?.any isIdent = false := by
  cases l? <;> rfl

theorem solid_name (k : Bytes) :
    (g.name ++ (Global.valueText g.literal ++ ch ';' :: k)).head?.any isSolid = true :=
  head_append_of_isSolid (isSolid_of_isWord g.isWord_name) _

theorem isStar_stars : ∀ s ∈ g.stars.map Global.starText, IsStar s := by
  intro s hs
  obtain ⟨spaced, -, rfl⟩ := List.mem_map.mp hs
  exact isStar_starText spaced

/-- No word of the first vocabulary leads the text behind the words of the type. -/
theorem leads_tailText (k : Bytes) :
    ∀ w ∈ Vocabulary.initial.modifiers ++ Vocabulary.initial.types,
      leads w (g.tailText ++ k) = false := by
  intro w hw
  have hword := identifiersOnly_initial w hw
  rw [tailText_append]
  cases g.stars with
  | nil =>
    have hmem : w ∈ Vocabulary.primitiveTypes ++ Vocabulary.primitiveModifiers := by
      revert w
      decide
    rw [List.map_nil, List.flatten_nil, List.nil_append, ← Bool.not_eq_true,
      leads_word_iff hword g.isWord_name (edge_valueText g.literal k)]
    rintro rfl
    exact g.name_not_mem hmem
  | cons b stars => exact leads_of_isWord hword rfl

theorem baseType_global (k : Bytes) :
    Reads .initial baseType (g.text ++ k) (· = (g.modifiers, g.base)) (g.tailText ++ k) := by
  have hmodifiers : ∀ w ∈ modifierWords, w ∈ Vocabulary.initial.modifiers := by decide
  have htypes : ∀ w ∈ baseWords, w ∈ Vocabulary.initial.types := by decide
  have hsolid := solid_stars (isStar_stars g) (solid_name g k)
  rw [text_append]
  refine baseType_reads identifiersOnly_initial ?_
    (fun w hw => hmodifiers w (g.modifiers_mem w hw)) (htypes _ g.base_mem)
    fun _ => leads_tailText g k
  rwa [tailText_append]

theorem declarator_global (k : Bytes) :
    Reads .initial (declarator .named) (g.text ++ k)
      (fun d => Layout.ofType d.1 = .ok g.layout ∧ d.2 = g.name)
      ((Global.valueText g.literal ++ ch ';' :: k).dropWhile isSpace) := by
  have hsettled : Settled ((Global.valueText g.literal ++ ch ';' :: k).dropWhile isSpace) := by
    cases g.literal <;> exact settled_of_isSolid rfl
  have hbracket : leads (ascii "[")
      ((Global.valueText g.literal ++ ch ';' :: k).dropWhile isSpace) = false := by
    cases g.literal <;> rfl
  rw [declarator, declaratorWith]
  refine here_reads.bind fun p _ => ?_
  refine (baseType_global g k).bind_eq ?_
  dsimp only
  rw [tailText_append]
  refine (pointers_reads (solid_name g k)
    (leads_of_class (by decide) (head_of_isWord g.isWord_name _)) (isStar_stars g) _).bind ?_
  rintro t ⟨ps, hlength, rfl⟩
  refine (identifier_reads rfl g.isWord_name (edge_valueText g.literal k) hsettled).bind_eq ?_
  refine (arrays_stop hbracket).bind_eq ?_
  refine Reads.pure ⟨?_, rfl⟩
  have hnil : ps = [] ↔ g.stars = [] := by
    rw [← List.length_eq_zero_iff, hlength, List.length_map, List.length_eq_zero_iff]
  rw [ofType_pointers, ← layout_eq g]
  simp only [hnil]
  rfl

theorem mem_initial_of_mem : ∀ w ∈ modifierWords ++ baseWords,
    w ∈ Vocabulary.initial.modifiers ++ Vocabulary.initial.types := by decide

/-- The first word of a declaration. -/
theorem exists_first_word (k : Bytes) : ∃ w r, g.text ++ k = w ++ ch ' ' :: r ∧
    w ∈ modifierWords ++ baseWords := by
  rw [text_append]
  cases hm : g.modifiers with
  | nil => exact ⟨_, _, wordsText_cons _ _ _, List.mem_append_right _ g.base_mem⟩
  | cons m ms =>
    have hmem := g.modifiers_mem m (by rw [hm]; exact List.mem_cons_self)
    exact ⟨_, _, wordsText_cons _ _ _, List.mem_append_left _ hmem⟩

theorem typeStarts_global (k : Bytes) :
    Reads .initial typeStarts (g.text ++ k) (· = true) (g.text ++ k) := by
  obtain ⟨w, r, htext, hw⟩ := exists_first_word g k
  have hmem := mem_initial_of_mem w hw
  have hfind := find?_leads_word (r := ch ' ' :: r) identifiersOnly_initial
    (identifiersOnly_initial w hmem) rfl hmem
  rw [htext, typeStarts]
  refine get_reads.bind fun st hst => ?_
  rw [hst]
  have hpeek := firstPeeked_reads (v := .initial) (w := id) (s := w ++ ch ' ' :: r)
    (l := Vocabulary.initial.modifiers ++ Vocabulary.initial.types) (by
      rw [hfind]
      rintro u ⟨⟩
      rw [id, List.drop_left]
      exact comment?_of_isSpace r rfl)
  rw [hfind] at hpeek
  exact hpeek.map fun o ho => by rw [ho]; rfl

/-- **A declaration is read as a definition that asks for its slot.** -/
theorem definition_global (hk : Settled (k.dropWhile isSpace)) :
    Reads .initial definition (g.text ++ k) (Storage.Declares g.slot) (k.dropWhile isSpace) := by
  have hkeyword : ∀ u, isWord u = true → u ∉ modifierWords ++ baseWords →
      leads u (g.text ++ k) = false := by
    intro u hu hnot
    obtain ⟨w, r, htext, hw⟩ := exists_first_word g k
    have hword := identifiersOnly_initial w (mem_initial_of_mem w hw)
    rw [htext, ← Bool.not_eq_true, leads_word_iff hu hword rfl]
    rintro rfl
    exact hnot hw
  have hparen : leads (ascii "(")
      ((Global.valueText g.literal ++ ch ';' :: k).dropWhile isSpace) = false := by
    cases g.literal <;> rfl
  rw [definition]
  refine here_reads.bind fun p _ => ?_
  refine mark_reads.bind fun start _ => ?_
  refine (accept_misses (hkeyword (ascii "struct") (by decide) (by decide))).bind_false ?_
  refine (accept_misses (hkeyword (ascii "enum") (by decide) (by decide))).bind_false ?_
  refine (accept_misses (hkeyword (ascii "typedef") (by decide) (by decide))).bind_false ?_
  rw [declaration]
  refine (typeStarts_global g k).bind_true ?_
  refine (declarator_global g k).bind ?_
  rintro ⟨type, name⟩ ⟨htype, rfl⟩
  dsimp only
  refine (accept_misses hparen).bind_false ?_
  refine (initialValue_reads g.literal hk).bind fun e? he => ?_
  exact Reads.pure ⟨type, e?, p, rfl, htype, he⟩

theorem solid_text (k : Bytes) : (g.text ++ k).head?.any isSolid = true := by
  obtain ⟨w, r, htext, hw⟩ := exists_first_word g k
  rw [htext]
  exact head_append_of_isSolid
    (isSolid_of_isWord (identifiersOnly_initial w (mem_initial_of_mem w hw))) _

end Definition

/-! ### Programs -/

/-- The lines behind the first declaration. -/
def linesBehind (gs : List Global) : Bytes := gs.flatMap fun g => 0x0a :: g.text

theorem source_cons (g : Global) (gs : List Global) :
    Global.source (g :: gs) = g.text ++ linesBehind gs := by
  induction gs generalizing g with
  | nil => simp [Global.source, linesBehind, Bytes.join]
  | cons h gs ih =>
    have := ih h
    simp only [Global.source, Bytes.join, List.map_cons, List.intercalate_cons_cons, linesBehind,
      List.flatMap_cons] at this ⊢
    rw [this]
    simp

/-- The line ends between declarations are skipped with the blanks. -/
theorem dropWhile_linesBehind (gs : List Global) :
    (linesBehind gs).dropWhile isSpace = Global.source gs ∧ Settled (Global.source gs) := by
  cases gs with
  | nil => exact ⟨rfl, settled_nil⟩
  | cons g gs =>
    have hsolid := solid_text g (linesBehind gs)
    rw [source_cons]
    refine ⟨?_, settled_of_isSolid hsolid⟩
    rw [linesBehind, List.flatMap_cons, List.cons_append,
      List.dropWhile_cons_of_pos (by decide)]
    exact dropWhile_isSpace_of_isSolid hsolid

/-- **Each declaration takes one round of the loop over definitions.** -/
theorem programStep_globals : ∀ (gs : List Global) (n : Bytes) (found : Program),
    (Global.source gs).length < n.length →
    Reads .initial (iterateWithin programStep n found) (Global.source gs)
      (fun p => ∃ defs, p = found.reverse ++ defs ∧
        List.Forall₂ Storage.Declares (gs.map Global.slot) defs) []
  | gs, [], found, hn => by simp at hn
  | [], b :: n, found, hn => by
    rw [iterateWithin_cons, programStep, bind_assoc]
    refine atEnd_reads.bind_eq ?_
    refine Reads.pure ⟨[], ?_, .nil⟩
    rw [List.append_nil]
  | g :: gs, b :: n, found, hn => by
    obtain ⟨hdrop, hsettled⟩ := dropWhile_linesBehind gs
    obtain ⟨c, r, htext⟩ : ∃ c r, g.text = c :: r := by
      have hsolid := solid_text g []
      cases h : g.text with
      | nil => rw [h] at hsolid; cases hsolid
      | cons c r => exact ⟨c, r, rfl⟩
    have hne : (g.text ++ linesBehind gs).isEmpty = false := by rw [htext]; rfl
    have hshorter : (Global.source gs).length < n.length := by
      have hle := (List.dropWhile_sublist isSpace (l := linesBehind gs)).length_le
      rw [hdrop] at hle
      rw [source_cons, htext, List.length_append, List.length_cons, List.length_cons] at hn
      omega
    have hdef := definition_global g (k := linesBehind gs) (by rw [hdrop]; exact hsettled)
    rw [hdrop] at hdef
    rw [iterateWithin_cons, programStep, bind_assoc, source_cons]
    refine atEnd_reads.bind_eq ?_
    rw [hne, if_neg (by simp), bind_assoc]
    refine hdef.bind fun d hd => ?_
    rw [pure_bind]
    refine (programStep_globals gs n (d :: found) hshorter).mono ?_
    rintro p ⟨defs, rfl, hdefs⟩
    refine ⟨d :: defs, ?_, .cons hd hdefs⟩
    rw [List.reverse_cons, List.append_assoc, List.singleton_append]

/-- **Declarations are read as definitions that ask for their slots,** in order. -/
theorem parseProgram_globals (gs : List Global) (file : Bytes) :
    ∃ defs, parseProgram (Global.source gs) file .initial = (.ok defs, .initial) ∧
      List.Forall₂ Storage.Declares (gs.map Global.slot) defs := by
  have hdrop : (Global.source gs).dropWhile isSpace = Global.source gs := by
    cases gs with
    | nil => rfl
    | cons g gs => rw [source_cons]; exact dropWhile_isSpace_of_isSolid (solid_text g _)
  have hstart := start_at file .initial hdrop (dropWhile_linesBehind gs).2
  have hprogram : Reads .initial program (Global.source gs) _ [] :=
    iterate_reads fun n hn => programStep_globals gs n [] hn
  obtain ⟨p, st, hrun, ⟨_, rfl, hdefs⟩, hst⟩ := hprogram _ hstart
  refine ⟨p, ?_, hdefs⟩
  rw [parseProgram, hrun]
  simp [outcome, hst.fault, vocabularyAfter, hst.vocabulary]

end Grammar

end MiniC
