import MiniC.Proofs.Storage.Initialization

/-!
# Which programs have an image

A program has an image if all its definitions are `Supported` and their sizes fit into memory. The
image is then `LaidOut`: one variable for each definition, in order and without gaps, and one
instruction for each initial value. Otherwise generation reports the first definition that `Breaks`
a condition; what comes behind that definition does not matter. `generate_spec` puts these together.

One definition either breaks a condition (`add_eq_error`) or is laid out (`exists_of_add`), and the
address of a definition is the sum of the sizes before it (`next_of_add`).
-/

namespace MiniC.Storage

/-! ### Definitions -/

/-- The literal stands for a number. -/
inductive Denotes : Expr → Binary64 → Prop
  | number (value : Binary64) (p : Position) : Denotes (.number value p) value
  | char (code : UInt8) (p : Position) : Denotes (.char code p) (.ofNat code.toNat)

/-- The definition is a global variable of a known type, without an initial value or with one that
stands for a number. -/
def Supported (item : Definition) : Prop :=
  ∃ name type initial p layout, item = .global name type initial p ∧
    Layout.ofType type = .ok layout ∧ ∀ e, initial = some e → ∃ value, Denotes e value

/-- The number of bytes of a global variable; zero if its type is not known. -/
def bytesOf : Definition → Nat
  | .global _ type _ _ => (Layout.ofType type).toOption.elim 0 Layout.size
  | _ => 0

/-- The number of bytes that the first `i` definitions take. -/
def bytesBefore (p : Program) (i : Nat) : Nat := ((p.take i).map bytesOf).sum

/-- The definition breaks a condition where `used` bytes are taken already, and is reported with
the error. Of several conditions that it breaks the first one counts: it must be a global variable,
of a known type, for which there is room, with an initial value that stands for a number. -/
inductive Breaks (used : Nat) : Definition → Error → Prop
  | function (name result parameters body p) :
      Breaks used (.function name result parameters body p) ⟨p, .unsupported (.function name)⟩
  | prototype (name result parameters p) :
      Breaks used (.prototype name result parameters p) ⟨p, .unsupported (.prototype name)⟩
  | struct (name members p) :
      Breaks used (.struct name members p) ⟨p, .unsupported (.struct name)⟩
  | enumeration (name members p) :
      Breaks used (.enumeration name members p) ⟨p, .unsupported (.enumeration name)⟩
  | typeName (name type p) :
      Breaks used (.typeName name type p) ⟨p, .unsupported (.typeName name)⟩
  | unknownType {name type initial p e} : Layout.ofType type = .error e →
      Breaks used (.global name type initial p) ⟨p, .unknownType name e⟩
  | noSpace {name type initial p layout} : Layout.ofType type = .ok layout →
      memorySize < used + layout.size →
      Breaks used (.global name type initial p) ⟨p, .noSpace name layout.size used⟩
  | literal {name type e p layout kind} : Layout.ofType type = .ok layout →
      used + layout.size ≤ memorySize → (∀ value, ¬ Denotes e value) →
      e.literalKind? = some kind →
      Breaks used (.global name type (some e) p) ⟨e.position, .unsupported (.literal kind)⟩
  | computed {name type e p layout} : Layout.ofType type = .ok layout →
      used + layout.size ≤ memorySize → e.literalKind? = none →
      Breaks used (.global name type (some e) p) ⟨e.position, .unsupported (.computed e.kindName)⟩

/-! ### One definition -/

theorem constant_eq_ok {e : Expr} {value : Binary64} :
    Draft.constant e = .ok value ↔ Denotes e value := by
  constructor
  · intro h
    cases e with
    | number v p =>
      cases h
      exact .number value p
    | char code p =>
      cases h
      exact .char code p
    | _ => cases h
  · rintro (⟨value, p⟩ | ⟨code, p⟩) <;> rfl

theorem not_denotes_of_constant {e : Expr} {f : Error} (h : Draft.constant e = .error f)
    (value : Binary64) : ¬ Denotes e value := by
  intro hv
  rw [constant_eq_ok.2 hv] at h
  cases h

/-- An initial value that stands for no number is reported by its kind. -/
theorem breaks_of_constant {used : Nat} {name : Bytes} {type : TypeDesc} {e : Expr} {p : Position}
    {layout : Layout} {f : Error} (htype : Layout.ofType type = .ok layout)
    (hroom : used + layout.size ≤ memorySize) (h : Draft.constant e = .error f) :
    Breaks used (.global name type (some e) p) f := by
  have hnone := not_denotes_of_constant h
  cases e with
  | number v q => exact absurd (.number v q) (hnone v)
  | char code q => exact absurd (.char code q) (hnone _)
  | string text q =>
    cases h
    exact .literal htype hroom hnone rfl
  | list items q =>
    cases h
    exact .literal htype hroom hnone rfl
  | _ =>
    cases h
    exact .computed htype hroom rfl

theorem addGlobal_of_unknownType {d : Draft} {name : Bytes} {type : TypeDesc}
    {initial : Option Expr} {p : Position} {e : UnknownType} (h : Layout.ofType type = .error e) :
    d.addGlobal name type initial p = .error ⟨p, .unknownType name e⟩ := by
  simp only [Draft.addGlobal, h]
  rfl

theorem addGlobal_of_noSpace {d : Draft} {name : Bytes} {type : TypeDesc} {initial : Option Expr}
    {p : Position} {layout : Layout} (h : Layout.ofType type = .ok layout)
    (hroom : memorySize < d.next + layout.size) :
    d.addGlobal name type initial p = .error ⟨p, .noSpace name layout.size d.next⟩ := by
  simp only [Draft.addGlobal, h, Draft.place, bind, Except.bind, if_pos hroom]

/-- With a known type and room enough, only the initial value decides. -/
theorem addGlobal_of_room {d : Draft} {name : Bytes} {type : TypeDesc} {e : Expr} {p : Position}
    {layout : Layout} (h : Layout.ofType type = .ok layout)
    (hroom : d.next + layout.size ≤ memorySize) {f : Error} :
    d.addGlobal name type (some e) p = .error f ↔ Draft.constant e = .error f := by
  simp only [Draft.addGlobal, h, Draft.place, if_neg (Nat.not_lt.2 hroom), bind, Except.bind]
  cases Draft.constant e <;> simp

/-- **A definition is refused exactly if it breaks a condition.** -/
theorem add_eq_error {d : Draft} {item : Definition} {e : Error} :
    d.add item = .error e ↔ Breaks d.next item e := by
  constructor
  · intro h
    cases item with
    | global name type initial p =>
      rw [Draft.add] at h
      cases htype : Layout.ofType type with
      | error u =>
        rw [addGlobal_of_unknownType htype] at h
        cases h
        exact .unknownType htype
      | ok layout =>
        by_cases hroom : memorySize < d.next + layout.size
        · rw [addGlobal_of_noSpace htype hroom] at h
          cases h
          exact .noSpace htype hroom
        · have hle : d.next + layout.size ≤ memorySize := Nat.le_of_not_lt hroom
          cases initial with
          | none =>
            simp only [Draft.addGlobal, htype, Draft.place, bind, Except.bind, if_neg hroom] at h
            cases h
          | some v => exact breaks_of_constant htype hle ((addGlobal_of_room htype hle).1 h)
    | _ =>
      cases h
      constructor
  · intro h
    cases h with
    | unknownType htype => exact addGlobal_of_unknownType htype
    | noSpace htype hroom => exact addGlobal_of_noSpace htype hroom
    | @literal name type v p layout kind htype hroom hnone hkind =>
      refine (addGlobal_of_room htype hroom).2 ?_
      cases v with
      | number x q => exact absurd (.number x q) (hnone x)
      | char code q => exact absurd (.char code q) (hnone _)
      | string text q =>
        cases hkind
        rfl
      | list items q =>
        cases hkind
        rfl
      | _ => cases hkind
    | @computed name type v p layout htype hroom hkind =>
      refine (addGlobal_of_room htype hroom).2 ?_
      cases v with
      | number x q => cases hkind
      | char code q => cases hkind
      | string text q => cases hkind
      | list items q => cases hkind
      | _ => rfl
    | _ => rfl

theorem next_of_add {d d' : Draft} {item : Definition} (h : d.add item = .ok d') :
    d'.next = d.next + bytesOf item := by
  obtain ⟨decl, ⟨type, rfl, htype⟩, -, -, -, rfl⟩ := exists_of_add h
  simp [bytesOf, htype, Except.toOption]

/-- A definition is accepted if it is supported and there is room. -/
theorem exists_add_iff {d : Draft} {item : Definition} : (∃ d', d.add item = .ok d') ↔
    Supported item ∧ d.next + bytesOf item ≤ memorySize := by
  constructor
  · rintro ⟨d', h⟩
    have hnext := next_of_add h
    obtain ⟨decl, ⟨type, hitem, htype⟩, -, hroom, hconst, rfl⟩ := exists_of_add h
    refine ⟨⟨decl.name, type, decl.initial, decl.position, decl.layout, hitem, htype, ?_⟩, ?_⟩
    · intro e he
      obtain ⟨value, hvalue⟩ := hconst e he
      exact ⟨value, constant_eq_ok.1 hvalue⟩
    · dsimp only at hnext
      omega
  · rintro ⟨⟨name, type, initial, p, layout, rfl, htype, hinit⟩, hroom⟩
    have hsize : bytesOf (.global name type initial p) = layout.size := by
      simp [bytesOf, htype, Except.toOption]
    rw [hsize] at hroom
    cases h : d.add (.global name type initial p) with
    | ok d' => exact ⟨d', rfl⟩
    | error e =>
      exfalso
      rcases add_eq_error.1 h with _ | _ | _ | _ | _ | hu | ⟨hl, hfull⟩ | ⟨_, _, hno, _⟩ | ⟨_, _, hk⟩
      · rw [htype] at hu
        cases hu
      · rw [htype] at hl
        cases hl
        omega
      · obtain ⟨value, hvalue⟩ := hinit _ rfl
        exact hno value hvalue
      · obtain ⟨value, hvalue⟩ := hinit _ rfl
        cases hvalue <;> cases hk

/-! ### The first definition that breaks a condition -/

theorem foldlM_add_cons_ok {item : Definition} {items : Program} {d d' : Draft} :
    (item :: items).foldlM Draft.add d = .ok d' ↔
      ∃ d₁, d.add item = .ok d₁ ∧ items.foldlM Draft.add d₁ = .ok d' := by
  rw [List.foldlM_cons]
  cases d.add item <;> simp [bind, Except.bind]

theorem foldlM_add_cons_error {item : Definition} {items : Program} {d : Draft} {e : Error} :
    (item :: items).foldlM Draft.add d = .error e ↔
      d.add item = .error e ∨
        ∃ d₁, d.add item = .ok d₁ ∧ items.foldlM Draft.add d₁ = .error e := by
  rw [List.foldlM_cons]
  cases d.add item <;> simp [bind, Except.bind]

theorem bytesBefore_succ (item : Definition) (p : Program) (i : Nat) :
    bytesBefore (item :: p) (i + 1) = bytesOf item + bytesBefore p i := by
  simp [bytesBefore]

/-- The definition with the number `i` breaks a condition, and none before it does. -/
structure FirstFault (used : Nat) (p : Program) (i : Nat) (e : Error) : Prop where
  breaks : ∃ item, p[i]? = some item ∧ Breaks (used + bytesBefore p i) item e
  before : ∀ j < i, ∀ item f, p[j]? = some item → ¬ Breaks (used + bytesBefore p j) item f

theorem firstFault_zero {used : Nat} {item : Definition} {p : Program} {e : Error} :
    FirstFault used (item :: p) 0 e ↔ Breaks used item e := by
  constructor
  · rintro ⟨⟨item', hitem, hb⟩, -⟩
    cases hitem
    exact hb
  · intro h
    exact ⟨⟨item, rfl, h⟩, fun j hj => absurd hj (Nat.not_lt_zero j)⟩

theorem firstFault_succ {used i : Nat} {item : Definition} {p : Program} {e : Error} :
    FirstFault used (item :: p) (i + 1) e ↔
      (∀ f, ¬ Breaks used item f) ∧ FirstFault (used + bytesOf item) p i e := by
  have hused : ∀ j, used + bytesBefore (item :: p) (j + 1) =
      used + bytesOf item + bytesBefore p j := by
    intro j
    rw [bytesBefore_succ, Nat.add_assoc]
  constructor
  · rintro ⟨⟨item', hitem, hb⟩, hbefore⟩
    rw [hused] at hb
    refine ⟨fun f => hbefore 0 (Nat.succ_pos i) item f rfl, ⟨item', hitem, hb⟩, ?_⟩
    intro j hj item₁ f hitem₁
    have h := hbefore (j + 1) (Nat.succ_lt_succ hj) item₁ f hitem₁
    rwa [hused] at h
  · rintro ⟨hfirst, ⟨item', hitem, hb⟩, hbefore⟩
    rw [← hused] at hb
    refine ⟨⟨item', hitem, hb⟩, ?_⟩
    intro j hj item₁ f hitem₁
    cases j with
    | zero =>
      cases hitem₁
      exact hfirst f
    | succ j =>
      rw [hused]
      exact hbefore j (Nat.lt_of_succ_lt_succ hj) item₁ f hitem₁

/-- Later definitions do not matter. -/
theorem FirstFault.of_take {used i : Nat} {p q : Program} {e : Error} (h : FirstFault used p i e)
    (hq : q.take (i + 1) = p.take (i + 1)) : FirstFault used q i e := by
  have hget : ∀ j ≤ i, q[j]? = p[j]? := by
    intro j hj
    rw [← List.getElem?_take_of_lt (l := q) (Nat.lt_succ_of_le hj), hq,
      List.getElem?_take_of_lt (Nat.lt_succ_of_le hj)]
  have hbytes : ∀ j ≤ i, bytesBefore q j = bytesBefore p j := by
    intro j hj
    have htake : q.take j = p.take j := by
      have h := congrArg (List.take j) hq
      rwa [List.take_take, List.take_take, Nat.min_eq_left (by omega)] at h
    rw [bytesBefore, bytesBefore, htake]
  obtain ⟨⟨item, hitem, hb⟩, hbefore⟩ := h
  refine ⟨⟨item, by rw [hget i le_rfl, hitem], by rw [hbytes i le_rfl]; exact hb⟩, ?_⟩
  intro j hj item₁ f hitem₁
  rw [hget j hj.le] at hitem₁
  rw [hbytes j hj.le]
  exact hbefore j hj item₁ f hitem₁

/-- **Generation fails with the error of the first definition that breaks a condition.** -/
theorem foldlM_add_eq_error {p : Program} {e : Error} : ∀ {d : Draft},
    p.foldlM Draft.add d = .error e ↔ ∃ i, FirstFault d.next p i e := by
  induction p with
  | nil =>
    intro d
    constructor
    · rintro ⟨⟩
    · rintro ⟨i, ⟨item, hitem, -⟩, -⟩
      cases hitem
  | cons item p ih =>
    intro d
    rw [foldlM_add_cons_error]
    constructor
    · rintro (h | ⟨d₁, h₁, h⟩)
      · exact ⟨0, firstFault_zero.2 (add_eq_error.1 h)⟩
      · obtain ⟨i, hi⟩ := ih.1 h
        rw [next_of_add h₁] at hi
        refine ⟨i + 1, firstFault_succ.2 ⟨fun f hf => ?_, hi⟩⟩
        rw [add_eq_error.2 hf] at h₁
        cases h₁
    · rintro ⟨i, hi⟩
      cases i with
      | zero => exact .inl (add_eq_error.2 (firstFault_zero.1 hi))
      | succ i =>
        obtain ⟨hfirst, hrest⟩ := firstFault_succ.1 hi
        cases h₁ : d.add item with
        | error f => exact absurd (add_eq_error.1 h₁) (hfirst f)
        | ok d₁ =>
          rw [← next_of_add h₁] at hrest
          exact .inr ⟨d₁, rfl, ih.2 ⟨i, hrest⟩⟩

/-- **Generation succeeds if all definitions are supported and fit into memory.** -/
theorem exists_foldlM_add_iff {p : Program} : ∀ {d : Draft}, d.next ≤ memorySize →
    ((∃ d', p.foldlM Draft.add d = .ok d') ↔
      (∀ item ∈ p, Supported item) ∧ d.next + (p.map bytesOf).sum ≤ memorySize) := by
  induction p with
  | nil =>
    intro d hd
    exact ⟨fun _ => ⟨by simp, by simpa using hd⟩, fun _ => ⟨d, rfl⟩⟩
  | cons item p ih =>
    intro d hd
    rw [List.forall_mem_cons, List.map_cons, List.sum_cons, ← Nat.add_assoc]
    constructor
    · rintro ⟨d', h⟩
      obtain ⟨d₁, h₁, h⟩ := foldlM_add_cons_ok.1 h
      obtain ⟨hitem, hroom⟩ := exists_add_iff.1 ⟨d₁, h₁⟩
      rw [← next_of_add h₁] at hroom ⊢
      obtain ⟨hrest, hsum⟩ := (ih hroom).1 ⟨d', h⟩
      exact ⟨⟨hitem, hrest⟩, hsum⟩
    · rintro ⟨⟨hitem, hrest⟩, hsum⟩
      have hroom : d.next + bytesOf item ≤ memorySize := by omega
      obtain ⟨d₁, h₁⟩ := exists_add_iff.2 ⟨hitem, hroom⟩
      rw [← next_of_add h₁] at hroom hsum
      obtain ⟨d', h⟩ := (ih hroom).2 ⟨hrest, hsum⟩
      exact ⟨d', foldlM_add_cons_ok.2 ⟨d₁, h₁, h⟩⟩

/-! ### The image of a program -/

/-- The definition asks for the variable. -/
def AsksFor (item : Definition) (x : Decl) : Prop :=
  ∃ type, item = .global x.name type x.initial x.position ∧ Layout.ofType type = .ok x.layout

/-- The instruction writes the initial value of the variable. -/
def Sets (x : Decl) (i : Instruction) : Prop :=
  i.address = x.address ∧ i.type = x.layout.type ∧ ∃ e, x.initial = some e ∧ Denotes e i.value

/-- The image has one variable for each definition, in order and without gaps, and one instruction
for each variable with an initial value, in order. -/
structure LaidOut (p : Program) (image : Image) : Prop where
  decls : List.Forall₂ AsksFor p image.decls
  first : ∀ x, image.decls[0]? = some x → x.address = 0
  next : ∀ i x y, image.decls[i]? = some x → image.decls[i + 1]? = some y →
    y.address = x.address + x.layout.size
  staticSize : image.staticSize = (image.decls.map fun x => x.layout.size).sum
  program : List.Forall₂ Sets (image.decls.filter fun x => x.initial.isSome) image.program

/-- The variables lie one after another from `address` on. -/
def InRow : (address : Nat) → List Decl → Prop
  | _, [] => True
  | address, x :: rest => x.address = address ∧ InRow (address + x.layout.size) rest

theorem InRow.first {address : Nat} {decls : List Decl} (h : InRow address decls) {x : Decl}
    (hx : decls[0]? = some x) : x.address = address := by
  cases decls with
  | nil => cases hx
  | cons y rest =>
    cases hx
    exact h.1

theorem InRow.next : ∀ {decls : List Decl} {address : Nat}, InRow address decls →
    ∀ (i : Nat) (x y : Decl), decls[i]? = some x → decls[i + 1]? = some y →
      y.address = x.address + x.layout.size
  | [], _, _, i, x, y, hx, _ => by cases hx
  | z :: rest, address, h, 0, x, y, hx, hy => by
    cases hx
    rw [h.1]
    exact h.2.first hy
  | z :: rest, address, h, i + 1, x, y, hx, hy => h.2.next i x y hx hy

/-- The variables that definitions add to a draft, and their instructions. -/
theorem exists_of_foldlM_add {items : Program} : ∀ {d d' : Draft},
    items.foldlM Draft.add d = .ok d' → ∃ decls : List Decl, List.Forall₂ AsksFor items decls ∧
      InRow d.next decls ∧
      (∀ x ∈ decls, ∀ e, x.initial = some e → ∃ value, Draft.constant e = .ok value) ∧
      d'.next = d.next + (decls.map fun x => x.layout.size).sum ∧
      d'.decls = decls.reverse ++ d.decls ∧
      d'.program = (decls.filterMap Decl.instruction?).reverse ++ d.program := by
  induction items with
  | nil =>
    rintro d d' ⟨⟩
    exact ⟨[], .nil, trivial, by simp, rfl, rfl, rfl⟩
  | cons item items ih =>
    intro d d' h
    obtain ⟨d₁, h₁, h⟩ := foldlM_add_cons_ok.1 h
    obtain ⟨decls, hasks, hrow, hconst, hnext, hdecls, hprogram⟩ := ih h
    obtain ⟨x, hx, haddress, -, hinit, rfl⟩ := exists_of_add h₁
    dsimp only at hrow hnext hdecls hprogram
    refine ⟨x :: decls, .cons hx hasks, ⟨haddress, hrow⟩,
      List.forall_mem_cons.2 ⟨hinit, hconst⟩, ?_, ?_, ?_⟩
    · rw [hnext, List.map_cons, List.sum_cons, Nat.add_assoc]
    · rw [hdecls, List.reverse_cons, List.append_assoc, List.singleton_append]
    · rw [hprogram, List.filterMap_cons]
      cases x.instruction? <;> simp

theorem forall₂_sets : ∀ {decls : List Decl},
    (∀ x ∈ decls, ∀ e, x.initial = some e → ∃ value, Draft.constant e = .ok value) →
    List.Forall₂ Sets (decls.filter fun x => x.initial.isSome) (decls.filterMap Decl.instruction?)
  | [], _ => .nil
  | x :: decls, h => by
    obtain ⟨hx, hdecls⟩ := List.forall_mem_cons.1 h
    have ih := forall₂_sets hdecls
    cases hinit : x.initial with
    | none =>
      have hnone : x.instruction? = none := by simp [Decl.instruction?, hinit]
      rwa [List.filter_cons_of_neg (by simp [hinit]), List.filterMap_cons, hnone]
    | some e =>
      obtain ⟨value, hvalue⟩ := hx e hinit
      have hsome : x.instruction? = some ⟨x.address, x.layout.type, value⟩ :=
        Decl.instruction?_eq_some.2 ⟨e, value, hinit, hvalue, rfl⟩
      rw [List.filter_cons_of_pos (by simp [hinit]), List.filterMap_cons, hsome]
      exact .cons ⟨rfl, rfl, e, hinit, constant_eq_ok.1 hvalue⟩ ih

theorem laidOut_of_foldlM {p : Program} {d : Draft}
    (h : p.foldlM Draft.add Draft.empty = .ok d) : LaidOut p d.image := by
  obtain ⟨decls, hasks, hrow, hconst, hnext, hdecls, hprogram⟩ := exists_of_foldlM_add h
  have hd : d.image.decls = decls := by simp [Draft.image, hdecls, Draft.empty]
  have hp : d.image.program = decls.filterMap Decl.instruction? := by
    simp [Draft.image, hprogram, Draft.empty]
  constructor
  · rw [hd]
    exact hasks
  · rw [hd]
    exact fun x hx => hrow.first hx
  · rw [hd]
    exact hrow.next
  · rw [hd]
    exact hnext.trans (Nat.zero_add _)
  · rw [hd, hp]
    exact forall₂_sets hconst

theorem generate_eq_ok {p : Program} {image : Image} : generate p = .ok image ↔
    ∃ d, p.foldlM Draft.add Draft.empty = .ok d ∧ image = d.image := by
  unfold generate
  cases p.foldlM Draft.add Draft.empty <;> simp [bind, Except.bind, eq_comm]

theorem generate_eq_error {p : Program} {e : Error} : generate p = .error e ↔
    ∃ i, FirstFault 0 p i e := by
  have h := foldlM_add_eq_error (p := p) (e := e) (d := Draft.empty)
  rw [show Draft.empty.next = 0 from rfl] at h
  rw [← h, generate]
  cases p.foldlM Draft.add Draft.empty <;> simp [bind, Except.bind]

/-- **Generation accepts exactly the supported programs that fit into memory,** lays their variables
out in order, and reports the first definition that breaks a condition in any other program,
whatever follows that definition. -/
theorem generate_spec (p : Program) :
    ((∃ image, generate p = .ok image) ↔
      (∀ item ∈ p, Supported item) ∧ (p.map bytesOf).sum ≤ memorySize) ∧
    (∀ image, generate p = .ok image → LaidOut p image) ∧
    (∀ e, generate p = .error e ↔ ∃ i, FirstFault 0 p i e) ∧
    ∀ i e, FirstFault 0 p i e → ∀ rest, generate (p.take (i + 1) ++ rest) = .error e := by
  refine ⟨?_, ?_, fun e => generate_eq_error, ?_⟩
  · have h := exists_foldlM_add_iff (p := p) (d := Draft.empty) (Nat.zero_le _)
    rw [show Draft.empty.next = 0 from rfl, Nat.zero_add] at h
    rw [← h]
    constructor
    · rintro ⟨image, himage⟩
      obtain ⟨d, hd, -⟩ := generate_eq_ok.1 himage
      exact ⟨d, hd⟩
    · rintro ⟨d, hd⟩
      exact ⟨d.image, generate_eq_ok.2 ⟨d, hd, rfl⟩⟩
  · intro image himage
    obtain ⟨d, hd, rfl⟩ := generate_eq_ok.1 himage
    exact laidOut_of_foldlM hd
  · intro i e hi rest
    obtain ⟨item, hitem, -⟩ := hi.breaks
    have hlt : i < p.length := (List.getElem?_eq_some_iff.1 hitem).1
    refine generate_eq_error.2 ⟨i, hi.of_take ?_⟩
    rw [List.take_append_of_le_length (by rw [List.length_take]; omega), List.take_take,
      Nat.min_self]

/-- The variables of `threeVariables`, then `float d;` and `struct s { };` -/
def floatAndStruct : Program :=
  let p : Position := ⟨[], 2⟩
  threeVariables ++ [.global (ascii "d") (.base [] (ascii "float") p) none p,
    .struct (ascii "s") [] p]

theorem generate_spec_float :
    (∃ image, generate threeVariables = .ok image ∧ LaidOut threeVariables image) ∧
    ∃ i, FirstFault 0 floatAndStruct i
        ⟨⟨[], 2⟩, .unknownType (ascii "d") ⟨ascii "float"⟩⟩ ∧
      ∀ rest, generate (floatAndStruct.take (i + 1) ++ rest) =
        .error ⟨⟨[], 2⟩, .unknownType (ascii "d") ⟨ascii "float"⟩⟩ := by
  obtain ⟨-, hlaid, -, -⟩ := generate_spec threeVariables
  obtain ⟨-, -, herror, hrest⟩ := generate_spec floatAndStruct
  have hfloat : generate floatAndStruct =
      .error ⟨⟨[], 2⟩, .unknownType (ascii "d") ⟨ascii "float"⟩⟩ := rfl
  obtain ⟨i, hi⟩ := (herror _).1 hfloat
  exact ⟨⟨_, rfl, hlaid _ rfl⟩, i, hi, hrest i _ hi⟩

end MiniC.Storage
