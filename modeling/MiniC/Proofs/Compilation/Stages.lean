import MiniC.Compilation
import MiniC.Proofs.Storage.Initialization
import MiniC.Proofs.Syntax.Relocate

/-!
# The stages of a compilation

`compile_eq_ok`: a compilation succeeds if each stage succeeds on what the one before it gave.

The last stage does not look at positions. `toOption_generate_relocate`: a program at other
positions has an image if the program has, and the same one but for the positions of the variables.
-/

namespace MiniC

/-! ### Images at other positions -/

namespace Storage

/-- The variable with every position `p` replaced by `f p`. -/
def Decl.relocate (f : Position → Position) (d : Decl) : Decl :=
  { d with initial := d.initial.map (Expr.relocate f), position := f d.position }

/-- The draft with every position `p` replaced by `f p`. -/
def Draft.relocate (f : Position → Position) (d : Draft) : Draft :=
  { d with decls := d.decls.map (Decl.relocate f) }

/-- The image with every position `p` replaced by `f p`. -/
def Image.relocate (f : Position → Position) (i : Image) : Image :=
  { i with decls := i.decls.map (Decl.relocate f) }

/-- The image without its positions. -/
def Image.unplaced (i : Image) : Image := i.relocate fun _ => .nowhere

theorem ofType_relocate (f : Position → Position) (t : TypeDesc) :
    Layout.ofType (t.relocate f) = Layout.ofType t := by
  cases t <;> rfl

theorem toOption_bind {ε α β : Type} (x : Except ε α) (g : α → Except ε β) :
    (x >>= g).toOption = x.toOption.bind fun a => (g a).toOption := by
  cases x <;> rfl

/-- What a definition adds does not depend on positions. -/
theorem toOption_add_relocate (f : Position → Position) (d : Draft) (item : Definition) :
    ((d.relocate f).add (item.relocate f)).toOption =
      (d.add item).toOption.map (Draft.relocate f) := by
  cases item with
  | global name type initial p =>
    have hnext : (d.relocate f).next = d.next := rfl
    simp only [Definition.relocate, Draft.add, Draft.addGlobal, Draft.place, ofType_relocate, hnext]
    cases Layout.ofType type with
    | error e => rfl
    | ok layout =>
      by_cases hroom : memorySize < d.next + layout.size
      · simp only [bind, Except.bind, if_pos hroom]
        rfl
      · simp only [bind, Except.bind, if_neg hroom]
        cases initial with
        | none => rfl
        | some e => cases e <;> rfl
  | _ => rfl

theorem toOption_foldlM_relocate (f : Position → Position) : ∀ (p : Program) (d : Draft),
    ((p.relocate f).foldlM Draft.add (d.relocate f)).toOption =
      (p.foldlM Draft.add d).toOption.map (Draft.relocate f)
  | [], d => rfl
  | item :: p, d => by
    rw [Program.relocate, List.map_cons, List.foldlM_cons, List.foldlM_cons, toOption_bind,
      toOption_bind, toOption_add_relocate]
    cases (d.add item).toOption with
    | none => rfl
    | some d₁ => exact toOption_foldlM_relocate f p d₁

/-- **The image of a program does not depend on positions,** but for those of its variables. -/
theorem toOption_generate_relocate (f : Position → Position) (p : Program) :
    (generate (p.relocate f)).toOption = (generate p).toOption.map (Image.relocate f) := by
  have hfold := toOption_foldlM_relocate f p Draft.empty
  have himage : ∀ d : Draft, (d.relocate f).image = d.image.relocate f := by
    intro d
    simp [Draft.image, Draft.relocate, Image.relocate]
  rw [generate, generate, toOption_bind, toOption_bind]
  rw [show Draft.empty.relocate f = Draft.empty from rfl] at hfold
  rw [hfold]
  cases (p.foldlM Draft.add Draft.empty).toOption with
  | none => rfl
  | some d => exact congrArg some (himage d)

/-- Programs that are equal up to positions have images that are. -/
theorem exists_generate_of_alike {p q : Program} (h : Alike Program.unplaced p q) {image : Image}
    (hp : generate p = .ok image) :
    ∃ image', generate q = .ok image' ∧ Alike Image.unplaced image' image := by
  have hq := toOption_generate_relocate (fun _ => .nowhere) q
  have hunplaced : Program.relocate (fun _ => .nowhere) q = p.relocate fun _ => .nowhere := h.symm
  rw [hunplaced, toOption_generate_relocate, hp] at hq
  cases hgenerate : generate q with
  | error e =>
    rw [hgenerate] at hq
    cases hq
  | ok image' =>
    rw [hgenerate] at hq
    exact ⟨image', rfl, (Option.some.inj hq).symm⟩

end Storage

/-! ### All stages -/

namespace Compilation

theorem mapError_eq_ok {ε ε' α : Type} {g : ε → ε'} {x : Except ε α} {a : α} :
    x.mapError g = .ok a ↔ x = .ok a := by
  cases x <;> simp [Except.mapError]

theorem bind_eq_ok {ε α β : Type} {x : Except ε α} {g : α → Except ε β} {b : β} :
    x >>= g = .ok b ↔ ∃ a, x = .ok a ∧ g a = .ok b := by
  cases x <;> simp [bind, Except.bind]

/-- **A compilation succeeds if its stages do.** -/
theorem compile_eq_ok {source file : Bytes} {o : Options} {c : Compiled} :
    compile source file o = .ok c ↔
      preprocessed source file o = .ok c.text ∧
      (Grammar.parseProgram c.text (reportedFile file)
        (Vocabulary.initial.extend o.types o.modifiers)).1 = .ok c.program ∧
      Storage.generate c.program = .ok c.image := by
  simp only [compile, parse, bind_eq_ok, mapError_eq_ok, pure, Except.pure, Except.ok.injEq]
  constructor
  · rintro ⟨parsed, ⟨text, htext, program, hprogram, rfl⟩, image, himage, rfl⟩
    exact ⟨htext, hprogram, himage⟩
  · rintro ⟨htext, hprogram, himage⟩
    exact ⟨c.toParsed, ⟨c.text, htext, c.program, hprogram, rfl⟩, c.image, himage, rfl⟩

/-- Variables take the bytes that the image says. -/
theorem length_used {source file : Bytes} {o : Options} {c : Compiled}
    (h : compile source file o = .ok c) :
    c.image.initialized.used.length = c.image.staticSize := by
  obtain ⟨d, hd, himage⟩ := Storage.exists_of_generate (compile_eq_ok.1 h).2.2
  have hle : c.image.staticSize ≤ Storage.memorySize := by
    rw [himage]
    exact hd.next_le
  have hsize : c.image.initialized.staticSize = c.image.staticSize := rfl
  rw [Storage.Image.used, hsize]
  simp [hle]

end Compilation

end MiniC
