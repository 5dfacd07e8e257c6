import MiniC.Proofs.Compilation.Stages
import MiniC.Proofs.Grammar.GlobalVariable
import MiniC.Proofs.Macro.Verbatim

/-!
# Compiling global variables

`compile_globals`: declarations of global variables whose sizes fit into memory compile, the
variables lie one after another in the order of their declarations, and after initialization memory
holds their initial values in that order and is clear behind them.

The source passes the preprocessor unchanged: `Global.pieces` cuts a declaration into its tokens.
-/

namespace MiniC

open Macro (Piece Cuts piecesText cuts_word cuts_space cuts_mark cuts_number)

namespace Global

/-! ### The tokens of a declaration -/

/-- A word and the space behind it. -/
def wordPieces (w : Bytes) : List Piece := [(.identifier, w), (.whitespace, [ch ' '])]

/-- A star and the space behind it, if there is one. -/
def starPieces (spaced : Bool) : List Piece :=
  (.punctuator, [ch '*']) :: if spaced then [(.whitespace, [ch ' '])] else []

/-- The initial value, if there is one. -/
def valuePieces : Option Literal → List Piece
  | none => []
  | some l => [(.whitespace, [ch ' ']), (.punctuator, [ch '=']), (.whitespace, [ch ' ']),
      (.number, l.text)]

/-- Name and initial value of a declaration. -/
def namePieces (g : Global) : List Piece :=
  (.identifier, g.name) :: (valuePieces g.literal ++ [(.punctuator, [ch ';'])])

/-- The tokens of a declaration. -/
def pieces (g : Global) : List Piece :=
  (g.modifiers ++ [g.base]).flatMap wordPieces ++ (g.stars.flatMap starPieces ++ g.namePieces)

theorem piecesText_append (p q : List Piece) :
    piecesText (p ++ q) = piecesText p ++ piecesText q := by
  simp [piecesText]

theorem piecesText_pieces (g : Global) : piecesText g.pieces = g.text := by
  have hwords : ∀ ws : List Bytes, piecesText (ws.flatMap wordPieces) =
      ws.flatMap fun w => w ++ [ch ' '] := by
    intro ws
    simp [piecesText, wordPieces, List.flatMap_assoc]
  have hstars : ∀ bs : List Bool, piecesText (bs.flatMap starPieces) = bs.flatMap starText := by
    intro bs
    rw [piecesText, List.flatMap_assoc]
    refine List.flatMap_congr fun b _ => ?_
    cases b <;> rfl
  have hvalue : piecesText (valuePieces g.literal) = valueText g.literal := by
    cases g.literal with
    | none => rfl
    | some l => simp [valuePieces, piecesText, valueText]; rfl
  rw [pieces, piecesText_append, piecesText_append, hwords, hstars, text, tailText, namePieces]
  simp [piecesText, ← hvalue]

theorem isIdent_of_isHexDigit : ∀ b : UInt8, isHexDigit b = true → isIdent b = true :=
  forall_byte (by decide +kernel)

theorem isIdent_of_mem_text (l : Literal) : ∀ b ∈ l.text, isIdent b = true := by
  intro b hb
  obtain ⟨radix, digits, hne, hdigit, hlt⟩ := l
  cases radix with
  | decimal => exact isIdent_of_isDigit (hdigit b hb)
  | hexadecimal =>
    have hmark : (Radix.mark .hexadecimal).all isIdent = true := by decide
    rcases List.mem_append.mp hb with hb | hb
    · exact List.all_eq_true.mp hmark b hb
    · exact isIdent_of_isHexDigit b (hdigit b hb)

/-- A letter, a digit, an underscore or a star: what stands behind a space or a star. -/
def isOpening (b : UInt8) : Bool := isIdent b || b == ch '*'

theorem not_isSpace_of_isOpening {s : Bytes} (h : s.head?.any isOpening = true) :
    s.head?.any isSpace = false ∧ s.head? ≠ some (ch '=') := by
  have hbyte : ∀ b : UInt8, isOpening b = true → isSpace b = false ∧ some b ≠ some (ch '=') :=
    forall_byte (by decide +kernel)
  cases s with
  | nil => cases h
  | cons b s => exact hbyte b h

theorem isOpening_of_isIdent {b : UInt8} (h : isIdent b = true) : isOpening b = true := by
  rw [isOpening, h, Bool.true_or]

theorem cuts_namePieces (g : Global) : Cuts g.namePieces := by
  have hend : Cuts [(.punctuator, [ch ';'])] := cuts_mark (.inr (.inr rfl)) (by decide) trivial
  cases hl : g.literal with
  | none =>
    rw [namePieces, hl]
    exact cuts_word g.isWord_name rfl hend
  | some l =>
    have hdigit := Grammar.isDigit_head l []
    rw [List.append_nil] at hdigit
    have hopening : (piecesText [(.number, l.text), (.punctuator, [ch ';'])]).head?.any isOpening =
        true :=
      head_any_mono (Grammar.isDigit_head l [ch ';']) fun b hb =>
        isOpening_of_isIdent (isIdent_of_isDigit hb)
    have hnumber := cuts_number hdigit (isIdent_of_mem_text l) rfl rfl hend
    have hequals := cuts_mark (.inr (.inl rfl)) (fun h => by cases h)
      (cuts_space (not_isSpace_of_isOpening hopening).1 hnumber)
    rw [namePieces, hl]
    exact cuts_word g.isWord_name rfl (cuts_space rfl hequals)

theorem head_namePieces (g : Global) :
    (piecesText g.namePieces).head?.any isIdentStart = true := by
  rw [namePieces]
  exact Grammar.head_of_isWord g.isWord_name _

theorem cuts_stars (g : Global) : ∀ bs : List Bool,
    Cuts (bs.flatMap starPieces ++ g.namePieces) ∧
      (piecesText (bs.flatMap starPieces ++ g.namePieces)).head?.any isOpening = true
  | [] => by
    exact ⟨cuts_namePieces g, head_any_mono (head_namePieces g) fun b hb =>
      isOpening_of_isIdent (isIdent_of_isIdentStart hb)⟩
  | b :: bs => by
    obtain ⟨hcuts, hhead⟩ := cuts_stars g bs
    obtain ⟨hspace, hequals⟩ := not_isSpace_of_isOpening hhead
    refine ⟨?_, rfl⟩
    cases b with
    | true => exact cuts_mark (.inl rfl) (fun h => by cases h) (cuts_space hspace hcuts)
    | false => exact cuts_mark (.inl rfl) hequals hcuts

theorem cuts_words {pieces : List Piece} (hp : Cuts pieces)
    (hhead : (piecesText pieces).head?.any isOpening = true) : ∀ {ws : List Bytes},
    (∀ w ∈ ws, isWord w = true) → Cuts (ws.flatMap wordPieces ++ pieces) ∧
      (piecesText (ws.flatMap wordPieces ++ pieces)).head?.any isOpening = true
  | [], _ => ⟨hp, hhead⟩
  | w :: ws, h => by
    obtain ⟨hcuts, hsolid⟩ := cuts_words hp hhead fun u hu => h u (List.mem_cons_of_mem w hu)
    have hw := h w List.mem_cons_self
    refine ⟨cuts_word hw rfl (cuts_space (not_isSpace_of_isOpening hsolid).1 hcuts), ?_⟩
    exact head_any_mono (Grammar.head_of_isWord hw _) fun b hb =>
      isOpening_of_isIdent (isIdent_of_isIdentStart hb)

theorem mem_words (g : Global) {w : Bytes} (hw : w ∈ g.modifiers ++ [g.base]) :
    w ∈ modifierWords ++ baseWords := by
  rcases List.mem_append.mp hw with hw | hw
  · exact List.mem_append_left _ (g.modifiers_mem w hw)
  · rw [List.mem_singleton.mp hw]
    exact List.mem_append_right _ g.base_mem

theorem isWord_of_mem_words (g : Global) : ∀ w ∈ g.modifiers ++ [g.base], isWord w = true :=
  fun w hw => identifiersOnly_initial w (Grammar.mem_initial_of_mem w (g.mem_words hw))

/-- **The pieces of a declaration are its tokens.** -/
theorem cuts_pieces (g : Global) : Cuts g.pieces := by
  obtain ⟨hcuts, hhead⟩ := cuts_stars g g.stars
  exact (cuts_words hcuts hhead (isWord_of_mem_words g)).1

/-! ### Preprocessing -/

theorem lookup?_initial {w : Bytes} (clock : Clock)
    (hw : w ∉ Macro.Table.builtins.map Prod.fst) :
    (Macro.Table.initial clock).lookup? w = none := by
  rw [Macro.Table.lookup?, List.lookup_eq_none_iff]
  intro p hp
  rw [bne_iff_ne]
  rintro rfl
  exact hw (List.mem_map_of_mem hp)

theorem not_macro_of_mem_pieces (g : Global) {w : Bytes} (h : (.identifier, w) ∈ g.pieces) :
    w ∉ Macro.Table.builtins.map Prod.fst := by
  have hwords : ∀ w ∈ modifierWords ++ baseWords, w ∉ Macro.Table.builtins.map Prod.fst := by decide
  rw [pieces, List.mem_append, List.mem_append] at h
  rcases h with h | h | h
  · obtain ⟨u, hu, hw⟩ := List.mem_flatMap.mp h
    obtain rfl : w = u := by simpa [wordPieces] using hw
    exact hwords w (g.mem_words hu)
  · obtain ⟨b, -, hw⟩ := List.mem_flatMap.mp h
    cases b <;> simp [starPieces] at hw
  · obtain rfl : w = g.name := by
      cases hl : g.literal <;> simpa [namePieces, valuePieces, hl] using h
    exact g.name_not_macro

theorem isInert_of_isIdent : ∀ b : UInt8, isIdent b = true → isInert b = true :=
  forall_byte (by decide +kernel)

theorem isInert_of_mem_word {w : Bytes} (hw : isWord w = true) : ∀ b ∈ w, isInert b = true :=
  fun b hb => isInert_of_isIdent b (isIdent_of_isWord hw b hb)

theorem isInert_of_mem_text (g : Global) : ∀ b ∈ g.text, isInert b = true := by
  have hmarks := List.all_eq_true.mp (show (ascii "* ").all isInert = true by decide)
  have hequals := List.all_eq_true.mp (show (ascii " = ").all isInert = true by decide)
  have hvalue : ∀ b ∈ valueText g.literal, isInert b = true := by
    cases g.literal with
    | none => exact fun b hb => by cases hb
    | some l =>
      intro b hb
      rcases List.mem_append.mp hb with hb | hb
      · exact hequals b hb
      · exact isInert_of_isIdent b (isIdent_of_mem_text l b hb)
  intro b hb
  simp only [text, tailText, List.mem_append, List.mem_flatMap, List.mem_singleton] at hb
  rcases hb with ⟨w, hw, hb | rfl⟩ | ⟨spaced, -, hb⟩ | hb | hb | rfl
  · exact isInert_of_mem_word (g.isWord_of_mem_words w (by simpa using hw)) b hb
  · decide
  · refine hmarks b ?_
    cases spaced <;> simp [starText] at hb <;> rcases hb with rfl | rfl <;> decide
  · exact isInert_of_mem_word g.isWord_name b hb
  · exact hvalue b hb
  · decide

/-- **Declarations pass the preprocessor unchanged.** -/
theorem preprocess_source (gs : List Global) (file : Bytes) (clock : Clock) :
    Macro.preprocess (source gs) file ⟨[], [], clock⟩ = .ok (source gs) := by
  have hline : ∀ g : Global, ∀ place,
      Macro.processLine (.initial clock) place g.text = .ok (g.text, .initial clock) := by
    intro g place
    have hhead : g.text.head?.any isIdentStart = true := by
      obtain ⟨w, r, htext, hw⟩ := Grammar.exists_first_word g []
      rw [List.append_nil] at htext
      rw [htext]
      exact Grammar.head_of_isWord
        (identifiersOnly_initial w (Grammar.mem_initial_of_mem w hw)) _
    rw [← piecesText_pieces g] at hhead ⊢
    exact Macro.processLine_of_cuts g.cuts_pieces
      (fun w hw => lookup?_initial clock (g.not_macro_of_mem_pieces hw)) hhead
  cases gs with
  | nil => rfl
  | cons g gs =>
    refine Macro.preprocess_join (by simp) ?_ ?_
    · intro l hl
      obtain ⟨h, -, rfl⟩ := List.mem_map.mp hl
      exact h.isInert_of_mem_text
    · intro l hl place
      obtain ⟨h, -, rfl⟩ := List.mem_map.mp hl
      exact hline h place

end Global

namespace Compilation

/-- A source that every stage accepts is compiled. -/
theorem compile_of_stages {source file text : Bytes} {o : Options} {p : Program}
    {image : Storage.Image} (hnot : o.preprocessed = false)
    (hpre : Macro.preprocess source (reportedFile file) o.macros = .ok text)
    (hparse : (Grammar.parseProgram text (reportedFile file)
      (Vocabulary.initial.extend o.types o.modifiers)).1 = .ok p)
    (hgen : Storage.generate p = .ok image) : compile source file o = .ok ⟨⟨text, p⟩, image⟩ := by
  have htext : preprocessed source file o = .ok text := by
    rw [preprocessed, hnot, if_neg (by simp), hpre]
    rfl
  exact compile_eq_ok.2 ⟨htext, hparse, hgen⟩

/-- **Global variables are compiled.** Declarations whose sizes fit into memory compile: there is
one variable for each of them, in order, behind those before it, and after initialization memory
holds the initial values in that order and is clear behind them. -/
theorem compile_globals (gs : List Global) (file : Bytes) (clock : Clock)
    (hfit : Storage.totalSize (gs.map Global.slot) ≤ Storage.memorySize) :
    ∃ r, compile (Global.source gs) file ⟨⟨[], [], clock⟩, false, [], []⟩ = .ok r ∧
      r.image.decls.length = gs.length ∧
      (∀ i g, gs[i]? = some g → ∃ d, r.image.decls[i]? = some d ∧ d.name = g.name ∧
        d.layout = g.layout ∧ d.address = Storage.totalSize ((gs.take i).map Global.slot)) ∧
      r.image.staticSize = Storage.totalSize (gs.map Global.slot) ∧
      r.image.initialized.memory.toList = (gs.map Global.slot).flatMap Storage.Slot.bytes ++
        List.replicate (Storage.memorySize - Storage.totalSize (gs.map Global.slot)) 0 := by
  obtain ⟨defs, hparse, hdefs⟩ := Grammar.parseProgram_globals gs (reportedFile file)
  obtain ⟨image, hgen, hplaces, hsize, hmemory⟩ := Storage.generate_of_declares hdefs hfit
  have hcompile : compile (Global.source gs) file ⟨⟨[], [], clock⟩, false, [], []⟩ =
      .ok ⟨⟨Global.source gs, defs⟩, image⟩ := by
    have hextend : ∀ v : Vocabulary, v.extend [] [] = v := fun _ => rfl
    refine compile_of_stages rfl (Global.preprocess_source gs _ clock) ?_ hgen
    rw [hextend, hparse]
  refine ⟨_, hcompile, ?_, ?_, hsize, hmemory⟩
  · have hlen := congrArg List.length hplaces
    rw [List.length_map, Storage.length_places, List.length_map] at hlen
    exact hlen
  · intro i g hg
    have hi := congrArg (fun l => l[i]?) hplaces
    simp only [List.getElem?_map, Storage.getElem?_places, hg, Option.map_some, Nat.zero_add,
      ← List.map_take] at hi
    obtain ⟨d, hd, hplace⟩ := Option.map_eq_some_iff.mp hi
    simp only [Storage.Decl.place, Prod.mk.injEq] at hplace
    exact ⟨d, hd, hplace⟩

/-- An unsigned number of four bytes, a pointer without a value, and a byte whose value is cut. -/
theorem compile_globals_three :
    let clock : Clock := ⟨2024, 2, 29, 12, 30, 0⟩
    let a : Global := ⟨[ascii "unsigned"], ascii "long", [], ascii "a",
      some ⟨.hexadecimal, ascii "1fF", by decide, by decide +kernel, by decide⟩, by decide,
      by decide, by decide, by decide, by decide, by decide⟩
    let p : Global := ⟨[ascii "const"], ascii "short", [false, true], ascii "p", none, by decide,
      by decide, by decide, by decide, by decide, by decide⟩
    let c : Global := ⟨[], ascii "char", [], ascii "c",
      some ⟨.decimal, ascii "300", by decide, by decide +kernel, by decide⟩, by decide, by decide,
      by decide, by decide, by decide, by decide⟩
    let source := ascii "unsigned long a = 0x1fF;\nconst short ** p;\nchar c = 300;"
    Global.source [a, p, c] = source ∧
      Storage.totalSize ([a, p, c].map Global.slot) ≤ Storage.memorySize ∧
      ∃ r, compile source [] ⟨⟨[], [], clock⟩, false, [], []⟩ = .ok r ∧
        r.image.initialized.memory.toList =
          [0xff, 0x01, 0, 0, 0, 0, 0x2c] ++ List.replicate 65529 0 := by
  intro clock a p c source
  have hsource : Global.source [a, p, c] = source := by decide
  have hfit : Storage.totalSize ([a, p, c].map Global.slot) ≤ Storage.memorySize := by decide
  obtain ⟨r, hr, -, -, -, hmemory⟩ := compile_globals [a, p, c] [] clock hfit
  have hbytes : ([a, p, c].map Global.slot).flatMap Storage.Slot.bytes =
      [0xff, 0x01, 0, 0, 0, 0, 0x2c] := by decide
  have hrest :
      Storage.memorySize - Storage.totalSize ([a, p, c].map Global.slot) = 65529 := by decide
  rw [hsource] at hr
  rw [hbytes, hrest] at hmemory
  exact ⟨hsource, hfit, r, hr, hmemory⟩

end Compilation

end MiniC
