import MiniC.Proofs.Storage.Sequential

/-!
# Memory after initialization

`initialized_of_generate`: once the image of a program is initialized, each variable with an initial
value holds its bytes and all other memory is clear, whatever memory held before and in whatever
order the instructions run.

Generation adds one variable at a time behind those before it (`exists_of_add`), which keeps the
draft in order (`Draft.InOrder`): variables lie apart and inside memory, and the instructions are
those of the variables. Instructions that lie apart leave each other's bytes alone
(`getElem?_runAll`), so memory after them can be read off the instructions as a set.
-/

namespace MiniC

namespace Storage

/-! ### Memory -/

theorem memory_ext {m m' : Memory} (h : ∀ a < memorySize, m[a]? = m'[a]?) : m = m' := by
  refine Vector.ext fun a ha => ?_
  have hget := h a ha
  rwa [Vector.getElem?_eq_getElem ha, Vector.getElem?_eq_getElem ha, Option.some.injEq] at hget

/-- A store writes its bytes and nothing else. -/
theorem getElem?_store {n : Nat} : ∀ (bytes : Bytes) (m : Buffer n) (address a : Nat), a < n →
    (m.store address bytes)[a]? =
      if address ≤ a ∧ a < address + bytes.length then bytes[a - address]? else m[a]?
  | [], m, address, a, _ => by
    rw [Buffer.store, if_neg]
    simp
  | b :: bytes, m, address, a, ha => by
    rw [Buffer.store, getElem?_store bytes _ _ a ha, Vector.getElem?_setIfInBounds]
    rcases Nat.lt_trichotomy a address with hlt | rfl | hgt
    · rw [if_neg (by omega), if_neg (by omega), if_neg (by omega)]
    · rw [if_neg (by omega), if_pos rfl, if_pos ha, if_pos (by simp), Nat.sub_self,
        List.getElem?_cons_zero]
    · obtain ⟨k, rfl⟩ : ∃ k, a = address + 1 + k := ⟨a - (address + 1), by omega⟩
      have hk : address + 1 + k - (address + 1) = k := by omega
      have hk' : address + 1 + k - address = k + 1 := by omega
      rw [hk, hk', List.getElem?_cons_succ, if_neg (show address ≠ address + 1 + k by omega)]
      by_cases hin : k < bytes.length
      · rw [if_pos (by omega), if_pos (by rw [List.length_cons]; omega)]
      · rw [if_neg (by omega), if_neg (by rw [List.length_cons]; omega)]

/-- A value is written to the bytes of its type and nowhere else. -/
theorem getElem?_put {n : Nat} (m : Buffer n) (address : Nat) (t : IntType) (x : Binary64) {a : Nat}
    (ha : a < n) : (m.put address t x)[a]? =
      if address ≤ a ∧ a < address + t.width then some (x.byte (a - address)) else m[a]? := by
  rw [Buffer.put, getElem?_store _ _ _ _ ha, t.length_encode]
  split
  · rw [t.getElem?_encode x (by omega)]
  · rfl

namespace Instruction

/-- The instruction writes to the address. -/
def Covers (i : Instruction) (a : Nat) : Prop := i.address ≤ a ∧ a < i.address + i.type.width

instance (i : Instruction) (a : Nat) : Decidable (i.Covers a) := inferInstanceAs (Decidable (_ ∧ _))

/-- No address is written by both instructions. -/
def Apart (i j : Instruction) : Prop :=
  i.address + i.type.width ≤ j.address ∨ j.address + j.type.width ≤ i.address

theorem Apart.symm {i j : Instruction} (h : i.Apart j) : j.Apart i := Or.symm h

theorem Apart.not_covers {i j : Instruction} (h : i.Apart j) {a : Nat} (ha : i.Covers a) :
    ¬ j.Covers a := by
  unfold Apart Covers at *
  omega

theorem getElem?_run (i : Instruction) (m : Memory) {a : Nat} (ha : a < memorySize) :
    (i.run m)[a]? = if i.Covers a then some (i.value.byte (a - i.address)) else m[a]? :=
  getElem?_put m i.address i.type i.value ha

end Instruction

/-! ### Programs -/

/-- Runs instructions in order. -/
def runAll (program : List Instruction) (m : Memory) : Memory :=
  program.foldl (fun m i => i.run m) m

section RunAll
variable {program : List Instruction} {m : Memory} {a : Nat}

/-- Memory that no instruction covers stays. -/
theorem getElem?_runAll_of_not_covers (ha : a < memorySize) (h : ∀ i ∈ program, ¬ i.Covers a) :
    (runAll program m)[a]? = m[a]? := by
  induction program generalizing m with
  | nil => rfl
  | cons i program ih =>
    have hrest := ih (m := i.run m) fun j hj => h j (List.mem_cons_of_mem i hj)
    rw [i.getElem?_run m ha, if_neg (h i List.mem_cons_self)] at hrest
    exact hrest

/-- **An instruction that lies apart from all others decides the bytes that it covers.** -/
theorem getElem?_runAll (ha : a < memorySize) (hp : program.Pairwise Instruction.Apart)
    {i : Instruction} (hi : i ∈ program) (hc : i.Covers a) :
    (runAll program m)[a]? = some (i.value.byte (a - i.address)) := by
  induction program generalizing m with
  | nil => cases hi
  | cons j program ih =>
    rw [List.pairwise_cons] at hp
    rcases List.mem_cons.1 hi with rfl | hi
    · have hrest := getElem?_runAll_of_not_covers (m := i.run m) ha
        fun k hk => (hp.1 k hk).not_covers hc
      rw [i.getElem?_run m ha, if_pos hc] at hrest
      exact hrest
    · exact ih hp.2 hi

/-- **Instructions that lie apart may run in any order.** -/
theorem runAll_perm {order : List Instruction} (hperm : order.Perm program)
    (hp : program.Pairwise Instruction.Apart) : runAll order m = runAll program m := by
  have hp' : order.Pairwise Instruction.Apart := hp.perm hperm.symm Instruction.Apart.symm
  refine memory_ext fun a ha => ?_
  by_cases h : ∃ i ∈ program, i.Covers a
  · obtain ⟨i, hi, hc⟩ := h
    rw [getElem?_runAll ha hp hi hc, getElem?_runAll ha hp' (hperm.mem_iff.2 hi) hc]
  · have hnone : ∀ i ∈ program, ¬ i.Covers a := fun i hi hc => h ⟨i, hi, hc⟩
    rw [getElem?_runAll_of_not_covers ha hnone,
      getElem?_runAll_of_not_covers ha fun i hi => hnone i (hperm.mem_iff.1 hi)]

end RunAll

/-! ### Drafts -/

/-- The instruction that gives a variable its initial value. -/
def Decl.instruction? (d : Decl) : Option Instruction :=
  (d.initial.bind fun e => (Draft.constant e).toOption).map fun value =>
    ⟨d.address, d.layout.type, value⟩

/-- **What one definition adds:** a variable at the first free address, and its instruction. -/
theorem exists_of_add {d d' : Draft} {item : Definition} (h : d.add item = .ok d') :
    ∃ decl : Decl, (∃ type, item = .global decl.name type decl.initial decl.position ∧
        Layout.ofType type = .ok decl.layout) ∧
      decl.address = d.next ∧ d.next + decl.layout.size ≤ memorySize ∧
      (∀ e, decl.initial = some e → ∃ value, Draft.constant e = .ok value) ∧
      d' = ⟨d.next + decl.layout.size, decl :: d.decls, decl.instruction?.toList ++ d.program⟩ := by
  cases item with
  | global name type initial p =>
    unfold Draft.add at h
    cases hlayout : Layout.ofType type with
    | error e =>
      simp only [Draft.addGlobal, hlayout] at h
      cases h
    | ok layout =>
      simp only [Draft.addGlobal, hlayout, bind, Except.bind, Draft.place] at h
      split at h
      · cases h
      · next placed hplaced =>
        split at hplaced
        · cases hplaced
        · next hfit =>
          cases hplaced
          refine ⟨⟨name, layout, d.next, initial, p⟩, ⟨type, rfl, hlayout⟩, rfl,
            Nat.le_of_not_lt hfit, ?_⟩
          cases initial with
          | none =>
            cases h
            exact ⟨fun e he => (by cases he), rfl⟩
          | some e =>
            cases hvalue : Draft.constant e with
            | error f =>
              simp only [hvalue] at h
              cases h
            | ok value =>
              simp only [hvalue] at h
              cases h
              refine ⟨?_, ?_⟩
              · rintro _ ⟨⟩
                exact ⟨value, hvalue⟩
              · simp [Decl.instruction?, hvalue, Except.toOption]
  | _ => cases h

/-- Variables lie apart and inside memory, later ones first, and the instructions are theirs. -/
structure Draft.InOrder (d : Draft) : Prop where
  next_le : d.next ≤ memorySize
  below : ∀ x ∈ d.decls, x.address + x.layout.size ≤ d.next
  apart : d.decls.Pairwise fun x y => y.address + y.layout.size ≤ x.address
  constant : ∀ x ∈ d.decls, ∀ e, x.initial = some e → ∃ value, Draft.constant e = .ok value
  program : d.program = d.decls.filterMap Decl.instruction?

theorem Draft.inOrder_empty : Draft.empty.InOrder := by
  constructor <;> simp [Draft.empty]

/-- **A definition keeps the draft in order.** -/
theorem Draft.InOrder.add {d d' : Draft} {item : Definition} (hd : d.InOrder)
    (h : d.add item = .ok d') : d'.InOrder := by
  obtain ⟨decl, -, haddress, hfit, hconst, rfl⟩ := exists_of_add h
  constructor
  · exact hfit
  · refine List.forall_mem_cons.2 ⟨by rw [haddress], fun x hx => ?_⟩
    have := hd.below x hx
    dsimp only
    omega
  · refine List.pairwise_cons.2 ⟨fun x hx => ?_, hd.apart⟩
    rw [haddress]
    exact hd.below x hx
  · exact List.forall_mem_cons.2 ⟨hconst, hd.constant⟩
  · rw [List.filterMap_cons, hd.program]
    cases decl.instruction? <;> rfl

/-- **Definitions keep the draft in order.** -/
theorem Draft.InOrder.foldlM {items : List Definition} : ∀ {d d' : Draft}, d.InOrder →
    items.foldlM Draft.add d = .ok d' → d'.InOrder := by
  induction items with
  | nil =>
    rintro d d' hd ⟨⟩
    exact hd
  | cons item items ih =>
    intro d d' hd h
    rw [List.foldlM_cons] at h
    cases hadd : d.add item with
    | error e =>
      rw [hadd] at h
      cases h
    | ok d₁ =>
      rw [hadd] at h
      exact ih (hd.add hadd) h

theorem exists_of_generate {p : Program} {image : Image} (h : generate p = .ok image) :
    ∃ d : Draft, d.InOrder ∧ image = d.image := by
  unfold generate at h
  cases hfold : p.foldlM Draft.add Draft.empty with
  | error e =>
    rw [hfold] at h
    cases h
  | ok d =>
    rw [hfold] at h
    cases h
    exact ⟨d, Draft.inOrder_empty.foldlM hfold, rfl⟩

/-! ### Images -/

theorem Decl.instruction?_eq_some {x : Decl} {i : Instruction} : x.instruction? = some i ↔
    ∃ e value, x.initial = some e ∧ Draft.constant e = .ok value ∧
      i = ⟨x.address, x.layout.type, value⟩ := by
  unfold Decl.instruction?
  cases x.initial with
  | none => simp
  | some e =>
    cases h : Draft.constant e with
    | error f => simp [Except.toOption, h]
    | ok value => simp [Except.toOption, h, eq_comm]

section Draft
variable {d : Draft} (hd : d.InOrder)
include hd

theorem mem_program_iff {i : Instruction} :
    i ∈ d.image.program ↔ ∃ x ∈ d.image.decls, x.instruction? = some i := by
  simp [Draft.image, hd.program]

/-- The instructions of an image lie apart. -/
theorem pairwise_apart_program : d.image.program.Pairwise Instruction.Apart := by
  unfold Draft.image
  rw [List.pairwise_reverse, hd.program]
  refine List.Pairwise.filterMap Decl.instruction? (fun x y hxy i hi j hj => ?_) hd.apart
  obtain ⟨_, _, -, -, rfl⟩ := Decl.instruction?_eq_some.1 hi
  obtain ⟨_, _, -, -, rfl⟩ := Decl.instruction?_eq_some.1 hj
  exact Or.inl hxy

end Draft

/-- The image after initialization, if memory held `before`. -/
def Image.after (image : Image) (before : Memory) : Image :=
  { image with memory := before }.initialized

theorem memory_after (image : Image) (before : Memory) :
    (image.after before).memory = runAll image.program (Memory.filled 0) := rfl

/-- **Initialization sets the variables and nothing else.** All its writes are inside memory; then
each variable with an initial value holds the bytes of the value, lowest one first, and every other
byte is zero. Initializing once more changes nothing, and the order of the instructions does not
matter. -/
theorem initialized_of_generate {p : Program} {image : Image} (h : generate p = .ok image)
    (before : Memory) :
    (∀ i ∈ image.program, i.address + (i.type.encode i.value).length ≤ memorySize) ∧
    (∀ x ∈ image.decls, ∀ e, x.initial = some e → ∃ value, Draft.constant e = .ok value ∧
      ∀ k < x.layout.size,
        (image.after before).memory[x.address + k]? = (x.layout.type.encode value)[k]? ∧
        (image.after before).memory[x.address + k]? = some (value.byte k)) ∧
    (∀ a < memorySize, (∀ x ∈ image.decls, x.initial.isSome = true →
        a < x.address ∨ x.address + x.layout.size ≤ a) →
      (image.after before).memory[a]? = some 0) ∧
    (image.after before).initialized = image.after before ∧
    ∀ order : List Instruction, order.Perm image.program →
      order.foldl (fun m i => i.run m) (Memory.filled 0) = (image.after before).memory := by
  obtain ⟨d, hd, rfl⟩ := exists_of_generate h
  have hmem := @mem_program_iff d hd
  have hapart := pairwise_apart_program hd
  have hbelow : ∀ x ∈ d.image.decls, x.address + x.layout.size ≤ memorySize := fun x hx =>
    Nat.le_trans (hd.below x (List.mem_reverse.1 hx)) hd.next_le
  rw [memory_after]
  refine ⟨?_, ?_, ?_, rfl, fun order hperm => runAll_perm hperm hapart⟩
  · intro i hi
    obtain ⟨x, hx, hxi⟩ := hmem.1 hi
    obtain ⟨_, _, -, -, rfl⟩ := Decl.instruction?_eq_some.1 hxi
    rw [IntType.length_encode]
    exact hbelow x hx
  · intro x hx e he
    obtain ⟨value, hvalue⟩ := hd.constant x (List.mem_reverse.1 hx) e he
    refine ⟨value, hvalue, fun k hk => ?_⟩
    have hi : (⟨x.address, x.layout.type, value⟩ : Instruction) ∈ d.image.program :=
      hmem.2 ⟨x, hx, Decl.instruction?_eq_some.2 ⟨e, value, he, hvalue, rfl⟩⟩
    have hcovers : (⟨x.address, x.layout.type, value⟩ : Instruction).Covers (x.address + k) :=
      ⟨Nat.le_add_right _ _, Nat.add_lt_add_left hk _⟩
    have hbyte := getElem?_runAll (m := Memory.filled 0)
      (Nat.lt_of_lt_of_le (Nat.add_lt_add_left hk _) (hbelow x hx)) hapart hi hcovers
    rw [Nat.add_sub_cancel_left] at hbyte
    exact ⟨by rw [hbyte, x.layout.type.getElem?_encode value hk], hbyte⟩
  · intro a ha hfree
    rw [getElem?_runAll_of_not_covers ha]
    · exact Vector.getElem?_replicate.trans (if_pos ha)
    · intro i hi hcovers
      obtain ⟨x, hx, hxi⟩ := hmem.1 hi
      obtain ⟨e, _, he, -, rfl⟩ := Decl.instruction?_eq_some.1 hxi
      have := hfree x hx (by rw [he]; rfl)
      unfold Instruction.Covers Layout.size at *
      dsimp only at hcovers
      omega

/-- `char a = 300; int b; short *c = 'A';` -/
def threeVariables : Program :=
  let p : Position := ⟨[], 1⟩
  [.global (ascii "a") (.base [] (ascii "char") p) (some (.number (.ofNat 300) p)) p,
    .global (ascii "b") (.base [] (ascii "int") p) none p,
    .global (ascii "c") (.pointer (.base [] (ascii "short") p) p) (some (.char 65 p)) p]

theorem initialized_of_generate_three : ∃ image, generate threeVariables = .ok image ∧
    (image.after (Memory.filled 255)).memory[0]? = some 44 ∧
    (image.after (Memory.filled 255)).memory[1]? = some 0 ∧
    (image.after (Memory.filled 255)).memory[5]? = some 65 ∧
    (image.after (Memory.filled 255)).memory[6]? = some 0 := by
  let p : Position := ⟨[], 1⟩
  let a : Decl := ⟨ascii "a", ⟨ascii "char", .int8⟩, 0, some (.number (.ofNat 300) p), p⟩
  let b : Decl := ⟨ascii "b", ⟨ascii "int", .int32⟩, 1, none, p⟩
  let c : Decl := ⟨ascii "c", .pointer, 5, some (.char 65 p), p⟩
  have h : generate threeVariables = .ok ⟨Memory.filled 0, 7, [a, b, c],
      [⟨0, .int8, .ofNat 300⟩, ⟨5, .uint16, .ofNat 65⟩]⟩ := rfl
  obtain ⟨-, hset, hclear, -, -⟩ := initialized_of_generate h (Memory.filled 255)
  obtain ⟨va, hva, ha⟩ := hset a (by simp) _ rfl
  obtain ⟨vc, hvc, hc⟩ := hset c (by simp) _ rfl
  obtain rfl : .ofNat 300 = va := Except.ok.inj hva
  obtain rfl : .ofNat (65 : UInt8).toNat = vc := Except.ok.inj hvc
  have h300 : (Binary64.ofNat 300).byte 0 = 44 := by decide +kernel
  have h65 : (Binary64.ofNat (65 : UInt8).toNat).byte 0 = 65 ∧
      (Binary64.ofNat (65 : UInt8).toNat).byte 1 = 0 := by decide +kernel
  have hfree : ∀ x ∈ [a, b, c], x.initial.isSome = true → 1 < x.address ∨
      x.address + x.layout.size ≤ 1 := by decide +kernel
  exact ⟨_, h, (ha 0 (by decide)).2.trans (congrArg some h300), hclear 1 (by decide) hfree,
    (hc 0 (by decide)).2.trans (congrArg some h65.1),
    (hc 1 (by decide)).2.trans (congrArg some h65.2)⟩

end Storage

end MiniC
