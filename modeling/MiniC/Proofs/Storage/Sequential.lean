import MiniC.Proofs.Storage.Encoding

/-!
# Variables one after another

A `Slot` is a variable with its layout and initial value; `Declares` says that a definition asks for
it. `generate_of_declares`: definitions that ask for slots which fit into memory give an image with
the slots one after another from address 0, and once its instructions have run, memory holds the
bytes of the initial values in order and is clear behind them.

One definition is one step (`add_of_declares`): it appends the slot to the places and, through
`toList_store`, its bytes to memory.
-/

namespace MiniC

namespace Storage

/-! ### Memory as a list of bytes -/

theorem toList_filled : (Memory.filled 0).toList = List.replicate memorySize 0 :=
  Vector.toList_replicate

/-- Storing replaces as many bytes as it writes. -/
theorem toList_store {n : Nat} : ∀ {bytes old : Bytes} {m : Buffer n} {front back : Bytes},
    m.toList = front ++ (old ++ back) → old.length = bytes.length →
    (m.store front.length bytes).toList = front ++ (bytes ++ back)
  | [], old, m, front, back, hm, hl => by
    rw [List.length_nil, List.length_eq_zero_iff] at hl
    rw [Buffer.store, hm, hl]
  | b :: bytes, [], m, front, back, hm, hl => by simp at hl
  | b :: bytes, o :: old, m, front, back, hm, hl => by
    have hset : (m.setIfInBounds front.length b).toList = (front ++ [b]) ++ (old ++ back) := by
      rw [Vector.toList_setIfInBounds, hm, List.set_append_right _ _ (Nat.le_refl _), Nat.sub_self]
      simp
    have h := toList_store hset (by simpa using hl)
    rw [List.length_append, List.length_singleton] at h
    rw [Buffer.store, h]
    simp

/-! ### Slots -/

/-- A variable with its layout and its initial value, if it has one. -/
structure Slot where
  name : Bytes
  layout : Layout
  value : Option Nat

namespace Slot

/-- The number of bytes that the variable takes. -/
def size (s : Slot) : Nat := s.layout.size

/-- The bytes of the variable: those of its initial value, or zeros. -/
def bytes (s : Slot) : Bytes := littleEndian s.size (s.value.getD 0)

theorem length_bytes (s : Slot) : s.bytes.length = s.size := length_littleEndian _ _

end Slot

/-- The number of bytes that variables take. -/
def totalSize (slots : List Slot) : Nat := (slots.map Slot.size).sum

/-- Name, layout and address of variables, one after another from `address` on. -/
def places (address : Nat) : List Slot → List (Bytes × Layout × Nat)
  | [] => []
  | s :: slots => (s.name, s.layout, address) :: places (address + s.size) slots

theorem length_places : ∀ (address : Nat) (slots : List Slot),
    (places address slots).length = slots.length
  | _, [] => rfl
  | address, s :: slots => by rw [places, List.length_cons, length_places, List.length_cons]

/-- A variable stands behind all those before it. -/
theorem getElem?_places : ∀ (address : Nat) (slots : List Slot) (i : Nat),
    (places address slots)[i]? =
      slots[i]?.map fun s => (s.name, s.layout, address + totalSize (slots.take i))
  | _, [], _ => rfl
  | address, s :: slots, 0 => rfl
  | address, s :: slots, i + 1 => by
    rw [places, List.getElem?_cons_succ, getElem?_places _ slots i, List.getElem?_cons_succ]
    simp [totalSize, Nat.add_assoc]

/-! ### Definitions -/

/-- The expression is the initial value: a number with the value as its integer part. -/
def Initializes : Option Nat → Option Expr → Prop
  | none, none => True
  | some n, some (.number x _) => x.Exact n
  | _, _ => False

/-- The definition is a global variable with the slot's name, layout and initial value. -/
def Declares (s : Slot) (d : Definition) : Prop :=
  ∃ type initial p, d = .global s.name type initial p ∧ Layout.ofType type = .ok s.layout ∧
    Initializes s.value initial

/-- Name, layout and address of a variable. -/
def Decl.place (d : Decl) : Bytes × Layout × Nat := (d.name, d.layout, d.address)

/-- Memory after the instructions so far. -/
def Draft.contents (d : Draft) : Bytes := d.image.initialized.memory.toList

theorem contents_cons (d : Draft) (i : Instruction) {front back old : Bytes}
    (h : d.contents = front ++ (old ++ back)) (ha : i.address = front.length)
    (hl : old.length = (i.type.encode i.value).length) (next : Nat) (decls : List Decl) :
    (Draft.mk next decls (i :: d.program)).contents =
      front ++ (i.type.encode i.value ++ back) := by
  simp only [Draft.contents, Image.initialized, Draft.image, List.reverse_cons, List.foldl_append,
    List.foldl_cons, List.foldl_nil, Instruction.run, Buffer.put, ha] at h ⊢
  exact toList_store h hl

/-- **One definition appends one slot.** -/
theorem add_of_declares {s : Slot} {item : Definition} (hs : Declares s item) {d : Draft}
    {front : Bytes} (hfit : d.next + s.size ≤ memorySize) (hfront : front.length = d.next)
    (hd : d.contents = front ++ List.replicate (memorySize - d.next) 0) :
    ∃ d', d.add item = .ok d' ∧ d'.next = d.next + s.size ∧
      d'.decls.reverse.map Decl.place =
        d.decls.reverse.map Decl.place ++ [(s.name, s.layout, d.next)] ∧
      d'.contents = (front ++ s.bytes) ++ List.replicate (memorySize - d'.next) 0 := by
  obtain ⟨type, initial, p, rfl, htype, hinit⟩ := hs
  have hroom : ¬ memorySize < d.next + s.layout.size := by
    have : s.layout.size = s.size := rfl
    omega
  -- the slot takes the front of the memory that is still clear
  have hzeros : List.replicate (memorySize - d.next) (0 : UInt8) =
      List.replicate s.size 0 ++ List.replicate (memorySize - (d.next + s.size)) 0 := by
    rw [List.replicate_append_replicate]; congr 1; omega
  rw [hzeros] at hd
  have hplace : d.place s.name s.layout initial p =
      .ok ⟨d.next + s.size, ⟨s.name, s.layout, d.next, initial, p⟩ :: d.decls, d.program⟩ := by
    rw [Draft.place, if_neg hroom]; rfl
  simp only [Draft.add, Draft.addGlobal, htype, hplace, bind, Except.bind]
  cases hv : s.value with
  | none =>
    rw [hv] at hinit
    cases initial with
    | some e => cases hinit
    | none =>
      have hbytes : s.bytes = List.replicate s.size 0 := by
        rw [Slot.bytes, hv]; exact littleEndian_zero s.size
      refine ⟨⟨d.next + s.size, ⟨s.name, s.layout, d.next, none, p⟩ :: d.decls, d.program⟩, rfl,
        rfl, by simp [Decl.place], ?_⟩
      rw [hbytes, List.append_assoc]
      exact hd
  | some n =>
    rw [hv] at hinit
    cases initial with
    | none => cases hinit
    | some e =>
      cases e with
      | number x q =>
        have hbytes : s.bytes = s.layout.type.encode x := by
          rw [Slot.bytes, hv, IntType.encode_of_exact _ hinit]; rfl
        refine ⟨⟨d.next + s.size, ⟨s.name, s.layout, d.next, some (.number x q), p⟩ :: d.decls,
          ⟨d.next, s.layout.type, x⟩ :: d.program⟩, rfl, rfl, by simp [Decl.place], ?_⟩
        rw [hbytes, List.append_assoc]
        refine contents_cons d ⟨d.next, s.layout.type, x⟩ hd hfront.symm ?_ _ _
        rw [List.length_replicate, ← hbytes, Slot.length_bytes]
      | _ => cases hinit

/-- **Definitions append their slots in order.** -/
theorem foldlM_of_declares {slots : List Slot} {defs : List Definition}
    (h : List.Forall₂ Declares slots defs) : ∀ {d : Draft} {front : Bytes},
    d.next + totalSize slots ≤ memorySize → front.length = d.next →
    d.contents = front ++ List.replicate (memorySize - d.next) 0 →
    ∃ d', defs.foldlM Draft.add d = .ok d' ∧ d'.next = d.next + totalSize slots ∧
      d'.decls.reverse.map Decl.place =
        d.decls.reverse.map Decl.place ++ places d.next slots ∧
      d'.contents = (front ++ slots.flatMap Slot.bytes) ++
        List.replicate (memorySize - d'.next) 0 := by
  induction h with
  | nil =>
    intro d front _ _ hd
    exact ⟨d, rfl, rfl, by simp [places], by simpa using hd⟩
  | @cons s item slots defs hs _ ih =>
    intro d front hfit hfront hd
    have htotal : totalSize (s :: slots) = s.size + totalSize slots := by simp [totalSize]
    obtain ⟨d₁, hadd, hnext, hplaces, hcont⟩ :=
      add_of_declares hs (d := d) (by omega) hfront hd
    have hfront₁ : (front ++ s.bytes).length = d₁.next := by
      rw [List.length_append, Slot.length_bytes, hfront, hnext]
    obtain ⟨d₂, hfold, hnext₂, hplaces₂, hcont₂⟩ := ih (d := d₁) (by omega) hfront₁ hcont
    refine ⟨d₂, ?_, by omega, ?_, ?_⟩
    · rw [List.foldlM_cons, hadd]
      exact hfold
    · rw [hplaces₂, hplaces, places, hnext, List.append_assoc, List.singleton_append]
    · rw [hcont₂, List.flatMap_cons, List.append_assoc front]

/-- **Variables that fit are placed one after another,** and memory starts with their bytes. -/
theorem generate_of_declares {slots : List Slot} {defs : List Definition}
    (h : List.Forall₂ Declares slots defs) (hfit : totalSize slots ≤ memorySize) :
    ∃ image, generate defs = .ok image ∧ image.decls.map Decl.place = places 0 slots ∧
      image.staticSize = totalSize slots ∧
      image.initialized.memory.toList =
        slots.flatMap Slot.bytes ++ List.replicate (memorySize - totalSize slots) 0 := by
  have hempty : Draft.empty.contents = [] ++ List.replicate (memorySize - Draft.empty.next) 0 :=
    toList_filled
  obtain ⟨d, hfold, hnext, hplaces, hcont⟩ :=
    foldlM_of_declares h (by simpa [Draft.empty] using hfit) rfl hempty
  have hnext' : d.next = totalSize slots := by simpa [Draft.empty] using hnext
  refine ⟨d.image, ?_, ?_, hnext', ?_⟩
  · rw [generate, hfold]; rfl
  · simpa [Draft.empty, Draft.image] using hplaces
  · rw [← hnext']
    exact hcont

end Storage

end MiniC
