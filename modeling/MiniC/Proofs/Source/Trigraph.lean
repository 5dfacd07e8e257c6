import Mathlib.Logic.Relation
import Mathlib.Tactic.SplitIfs
import MiniC.Proofs.Text.ByteClass
import MiniC.Proofs.Text.Gather
import MiniC.Source.Trigraph

/-!
# Replacement of trigraphs

Replacement is a scan from the left that jumps over what it has replaced. `replace_eq_flatMap` says
what it amounts to without a scan: each index of the text is looked at on its own (`remains`). Where
a trigraph starts its image is left, of its other two bytes nothing is left, and every other byte
stays. `eq_replace_of_rewrites`: trigraphs may be replaced one by one in any order.

Behind both stand two facts about the nine images: none of them is a question mark, and none is the
third byte of a trigraph. So trigraphs do not overlap and no new one comes about.
-/

namespace MiniC.Trigraph

open Relation (ReflTransGen)

/-! ### The scan -/

section Images
variable {b c image : UInt8} {s rest : Bytes}

theorem image?_mark : image? (ch '?') = none := by decide

theorem image?_image (h : image? b = some image) : image ≠ ch '?' ∧ image? image = none := by
  have hall : ∀ b : UInt8, (image? b).all (fun c => c != ch '?' && (image? c).isNone) = true :=
    forall_byte (by decide +kernel)
  have hb := hall b
  rw [h, Option.all_some, Bool.and_eq_true, bne_iff_ne, Option.isNone_iff_eq_none] at hb
  exact hb

theorem ne_mark_of_image? (h : image? b = some image) : b ≠ ch '?' := by
  rintro rfl
  rw [image?_mark] at h
  cases h

theorem atFront?_trigraph (h : image? b = some image) :
    atFront? (ch '?' :: ch '?' :: b :: rest) = some image := by
  simp [atFront?, h]

theorem atFront?_of_ne (h : b ≠ ch '?') : atFront? (b :: rest) = none := by
  rcases rest with _ | ⟨c, _ | ⟨d, rest⟩⟩ <;> simp [atFront?, h]

theorem atFront?_of_second_ne (h : c ≠ ch '?') : atFront? (b :: c :: rest) = none := by
  cases rest <;> simp [atFront?, h]

theorem exists_of_atFront? (h : atFront? s = some image) :
    ∃ b rest, s = ch '?' :: ch '?' :: b :: rest ∧ image? b = some image := by
  unfold atFront? at h
  split at h
  · next q₁ q₂ b rest =>
    split_ifs at h with hq
    rw [Bool.and_eq_true, decide_eq_true_eq, decide_eq_true_eq] at hq
    exact ⟨b, rest, by rw [hq.1, hq.2], h⟩
  · cases h

end Images

theorem length_next? (s : Bytes) (b : UInt8) (s' : Bytes) (h : next? s = some (b, s')) :
    s'.length < s.length := by
  cases s with
  | nil => cases h
  | cons x rest =>
    rw [next?] at h
    cases hfront : atFront? (x :: rest) <;> rw [hfront] at h <;> cases h
    · simp
    · rw [List.length_drop, List.length_cons]
      omega

theorem substitute_of_next? {s s' : Bytes} {b : UInt8} (h : next? s = some (b, s')) :
    substitute s = b :: substitute s' := by
  obtain ⟨pieces, stop, hrun⟩ := exists_gathered length_next? s'
  have hwhole : Gathered next? s (b :: pieces) stop := .take h hrun
  rw [substitute, substitute, hwhole.gather_eq length_next? (Nat.le_refl _),
    hrun.gather_eq length_next? (Nat.le_refl _)]

theorem substitute_trigraph {b image : UInt8} {rest : Bytes} (h : image? b = some image) :
    substitute (ch '?' :: ch '?' :: b :: rest) = image :: substitute rest := by
  apply substitute_of_next?
  rw [next?, atFront?_trigraph h]
  rfl

theorem substitute_keep {b : UInt8} {rest : Bytes} (h : atFront? (b :: rest) = none) :
    substitute (b :: rest) = b :: substitute rest := by
  apply substitute_of_next?
  rw [next?, h]

/-- The rounds of the scan: a trigraph is at the front, or a byte that stays. -/
theorem scan_induction {P : Bytes → Prop} (nil : P [])
    (trigraph : ∀ b image rest, image? b = some image → P rest →
      P (ch '?' :: ch '?' :: b :: rest))
    (keep : ∀ b rest, atFront? (b :: rest) = none → P rest → P (b :: rest)) (s : Bytes) : P s := by
  induction hn : s.length using Nat.strongRecOn generalizing s with
  | ind n ih =>
    cases s with
    | nil => exact nil
    | cons b rest =>
      cases hfront : atFront? (b :: rest) with
      | none => exact keep b rest hfront (ih rest.length (by simp [← hn]) rest rfl)
      | some image =>
        obtain ⟨c, rest', heq, hc⟩ := exists_of_atFront? hfront
        rw [heq] at hn ⊢
        have hlt : rest'.length < n := by
          simp only [List.length_cons] at hn
          omega
        exact trigraph c image rest' hc (ih rest'.length hlt rest' rfl)

/-! ### Where trigraphs start -/

/-- The byte that the trigraph at index `i` stands for, if one starts there. -/
def at? (s : Bytes) (i : Nat) : Option UInt8 :=
  if s[i]? = some (ch '?') ∧ s[i + 1]? = some (ch '?') then s[i + 2]?.bind image? else none

/-- The indices at which a trigraph starts. -/
def places (s : Bytes) : List Nat := (List.range s.length).filter fun i => (at? s i).isSome

/-- The byte at index `i` is the second or the third one of a trigraph. -/
def isInside (s : Bytes) (i : Nat) : Bool := (places s).any fun j => j < i && i < j + 3

/-- What is left of the byte at index `i`: an image if a trigraph starts there, nothing if it lies
inside a trigraph, and else the byte. -/
def remains (s : Bytes) (i : Nat) : Bytes :=
  match at? s i with
  | some image => [image]
  | none => if isInside s i then [] else s[i]?.toList

section Places
variable {b image : UInt8} {rest : Bytes}

theorem at?_zero (s : Bytes) : at? s 0 = atFront? s := by
  rcases s with _ | ⟨q₁, _ | ⟨q₂, _ | ⟨b, rest⟩⟩⟩ <;> simp [at?, atFront?]

theorem at?_succ (b : UInt8) (rest : Bytes) (i : Nat) : at? (b :: rest) (i + 1) = at? rest i := rfl

theorem places_keep (h : atFront? (b :: rest) = none) :
    places (b :: rest) = (places rest).map (· + 1) := by
  rw [places, List.length_cons, List.range_succ_eq_map, List.filter_cons, at?_zero, h,
    List.filter_map]
  rfl

theorem places_trigraph (h : image? b = some image) :
    places (ch '?' :: ch '?' :: b :: rest) = 0 :: (places rest).map (· + 3) := by
  have hb : atFront? (b :: rest) = none := atFront?_of_ne (ne_mark_of_image? h)
  have hq : atFront? (ch '?' :: b :: rest) = none := atFront?_of_second_ne (ne_mark_of_image? h)
  have htail : (places (ch '?' :: b :: rest)).map (· + 1) = (places rest).map (· + 3) := by
    rw [places_keep hq, places_keep hb, List.map_map, List.map_map]
    rfl
  rw [← htail, places, List.length_cons, List.range_succ_eq_map, List.filter_cons, at?_zero,
    atFront?_trigraph h, List.filter_map]
  rfl

/-- **Trigraphs do not overlap.** -/
theorem add_three_le_of_mem_places (s : Bytes) :
    ∀ i ∈ places s, ∀ j ∈ places s, i < j → i + 3 ≤ j := by
  induction s using scan_induction with
  | nil => simp [places]
  | keep b rest h ih =>
    intro i hi j hj hij
    rw [places_keep h, List.mem_map] at hi hj
    obtain ⟨i, hi, rfl⟩ := hi
    obtain ⟨j, hj, rfl⟩ := hj
    have := ih i hi j hj (by omega)
    omega
  | trigraph b image rest h ih =>
    intro i hi j hj hij
    rw [places_trigraph h, List.mem_cons, List.mem_map] at hi hj
    rcases hj with rfl | ⟨j, hj, rfl⟩
    · omega
    · rcases hi with rfl | ⟨i, hi, rfl⟩
      · omega
      · have := ih i hi j hj (by omega)
        omega

theorem length_substitute (s : Bytes) :
    (substitute s).length + 2 * (places s).length = s.length := by
  induction s using scan_induction with
  | nil => rfl
  | keep b rest h ih =>
    rw [substitute_keep h, places_keep h, List.length_map, List.length_cons, List.length_cons]
    omega
  | trigraph b image rest h ih =>
    rw [substitute_trigraph h, places_trigraph h]
    simp only [List.length_cons, List.length_map]
    omega

/-! ### Index by index -/

theorem isInside_keep (h : atFront? (b :: rest) = none) (i : Nat) :
    isInside (b :: rest) (i + 1) = isInside rest i := by
  rw [isInside, places_keep h, List.any_map, isInside]
  congr 1
  funext j
  simp only [Function.comp, Nat.add_lt_add_iff_right, Nat.add_right_comm j 1 3]

theorem isInside_trigraph (h : image? b = some image) (i : Nat) :
    isInside (ch '?' :: ch '?' :: b :: rest) (i + 3) = isInside rest i := by
  have hzero : decide (i + 3 < 0 + 3) = false := by simp
  rw [isInside, places_trigraph h, List.any_cons, hzero, Bool.and_false, Bool.false_or,
    List.any_map, isInside]
  congr 1
  funext j
  simp only [Function.comp, Nat.add_lt_add_iff_right]

theorem remains_keep (h : atFront? (b :: rest) = none) (i : Nat) :
    remains (b :: rest) (i + 1) = remains rest i := by
  rw [remains, at?_succ, isInside_keep h, remains, List.getElem?_cons_succ]

theorem remains_trigraph (h : image? b = some image) (i : Nat) :
    remains (ch '?' :: ch '?' :: b :: rest) (i + 3) = remains rest i := by
  rw [remains, at?_succ, at?_succ, at?_succ, isInside_trigraph h, remains]
  rfl

theorem remains_front (h : atFront? (b :: rest) = none) : remains (b :: rest) 0 = [b] := by
  have hin : isInside (b :: rest) 0 = false := by simp [isInside]
  rw [remains, at?_zero, h, hin]
  rfl

theorem remains_first (h : image? b = some image) :
    remains (ch '?' :: ch '?' :: b :: rest) 0 = [image] := by
  rw [remains, at?_zero, atFront?_trigraph h]

theorem remains_second (h : image? b = some image) :
    remains (ch '?' :: ch '?' :: b :: rest) 1 = [] := by
  rw [remains, at?_succ, at?_zero, atFront?_of_second_ne (ne_mark_of_image? h), isInside,
    places_trigraph h]
  rfl

theorem remains_third (h : image? b = some image) :
    remains (ch '?' :: ch '?' :: b :: rest) 2 = [] := by
  rw [remains, at?_succ, at?_succ, at?_zero, atFront?_of_ne (ne_mark_of_image? h), isInside,
    places_trigraph h]
  rfl

/-- **The scan does to each index what its neighbourhood in the text asks for.** -/
theorem substitute_eq_flatMap (s : Bytes) :
    substitute s = (List.range s.length).flatMap (remains s) := by
  induction s using scan_induction with
  | nil => rfl
  | keep b rest h ih =>
    rw [substitute_keep h, List.length_cons, List.range_succ_eq_map, List.flatMap_cons,
      List.flatMap_map, remains_front h, List.singleton_append, ih]
    simp only [Nat.succ_eq_add_one, remains_keep h]
  | trigraph b image rest h ih =>
    rw [substitute_trigraph h, ih]
    simp only [List.length_cons, List.range_succ_eq_map, List.map_cons, List.map_map,
      List.flatMap_cons, List.flatMap_map, Function.comp, Nat.succ_eq_add_one, Nat.zero_add,
      remains_first h, remains_second h, remains_third h, remains_trigraph h, List.nil_append,
      List.singleton_append]

end Places

/-! ### Nothing is left to replace -/

section Rest
variable {x : UInt8} {s t : Bytes}

/-- A byte of the result that is no image comes from the text. -/
theorem of_substitute_eq_cons (hx : ∀ b, image? b ≠ some x) (h : substitute s = x :: t) :
    ∃ s', s = x :: s' ∧ atFront? s = none ∧ t = substitute s' := by
  cases s with
  | nil => cases h
  | cons b rest =>
    cases hfront : atFront? (b :: rest) with
    | none =>
      rw [substitute_keep hfront] at h
      cases h
      exact ⟨rest, rfl, rfl, rfl⟩
    | some image =>
      obtain ⟨c, rest', heq, hc⟩ := exists_of_atFront? hfront
      rw [heq, substitute_trigraph hc] at h
      cases h
      exact absurd hc (hx c)

/-- No trigraph comes about in front of what the scan has left. -/
theorem atFront?_cons_substitute {b : UInt8} {rest : Bytes} (h : atFront? (b :: rest) = none) :
    atFront? (b :: substitute rest) = none := by
  cases hfront : atFront? (b :: substitute rest) with
  | none => rfl
  | some image =>
    obtain ⟨c, t, heq, hc⟩ := exists_of_atFront? hfront
    obtain ⟨rfl, htail⟩ := List.cons.inj heq
    have hmark : ∀ d, image? d ≠ some (ch '?') := fun d hd => (image?_image hd).1 rfl
    have hthird : ∀ d, image? d ≠ some c := fun d hd => by
      rw [(image?_image hd).2] at hc
      cases hc
    obtain ⟨s₁, rfl, -, h₁⟩ := of_substitute_eq_cons hmark htail
    obtain ⟨s₂, rfl, -, -⟩ := of_substitute_eq_cons hthird h₁.symm
    rw [atFront?_trigraph hc] at h
    cases h

/-- **No trigraph is left.** -/
theorem places_substitute (s : Bytes) : places (substitute s) = [] := by
  induction s using scan_induction with
  | nil => rfl
  | keep b rest h ih => rw [substitute_keep h, places_keep (atFront?_cons_substitute h), ih]; rfl
  | trigraph b image rest h ih =>
    rw [substitute_trigraph h, places_keep (atFront?_of_ne (image?_image h).1), ih]
    rfl

theorem substitute_of_places (h : places s = []) : substitute s = s := by
  induction s using scan_induction with
  | nil => rfl
  | keep b rest hb ih =>
    rw [places_keep hb, List.map_eq_nil_iff] at h
    rw [substitute_keep hb, ih h]
  | trigraph b image rest hb ih =>
    rw [places_trigraph hb] at h
    cases h

end Rest

/-! ### Any order -/

/-- One trigraph, wherever it stands, gives way to its image. -/
inductive Rewrites : Bytes → Bytes → Prop
  | intro {b image : UInt8} (front back : Bytes) : image? b = some image →
      Rewrites (front ++ ch '?' :: ch '?' :: b :: back) (front ++ image :: back)

theorem Rewrites.cons {s t : Bytes} (b : UInt8) (h : Rewrites s t) :
    Rewrites (b :: s) (b :: t) := by
  cases h with
  | intro front back h => exact .intro (b :: front) back h

/-- The scan is one of the orders. -/
theorem rewrites_substitute (s : Bytes) : ReflTransGen Rewrites s (substitute s) := by
  induction s using scan_induction with
  | nil => exact .refl
  | keep b rest h ih =>
    rw [substitute_keep h]
    exact ih.lift (b :: ·) fun _ _ => .cons b
  | trigraph b image rest h ih =>
    rw [substitute_trigraph h]
    exact .head (.intro [] rest h) (ih.lift (image :: ·) fun _ _ => .cons image)

/-- No trigraph reaches into `back` from bytes in front of it. -/
def Sealed (back : Bytes) : Prop := ∀ front ≠ [], atFront? (front ++ back) = atFront? front

theorem Sealed.substitute_append {back : Bytes} (h : Sealed back) (front : Bytes) :
    substitute (front ++ back) = substitute front ++ substitute back := by
  induction front using scan_induction with
  | nil => rfl
  | keep b rest hb ih =>
    have hwhole : atFront? (b :: (rest ++ back)) = none :=
      (h (b :: rest) (List.cons_ne_nil _ _)).trans hb
    rw [List.cons_append, substitute_keep hwhole, substitute_keep hb, ih, List.cons_append]
  | trigraph b image rest hb ih =>
    simp only [List.cons_append, substitute_trigraph hb, ih]

theorem sealed_marks (back : Bytes) : Sealed (ch '?' :: ch '?' :: back) := by
  intro front hfront
  rcases front with _ | ⟨x, _ | ⟨y, _ | ⟨z, front⟩⟩⟩
  · exact absurd rfl hfront
  · simp [atFront?, image?_mark]
  · simp [atFront?, image?_mark]
  · rfl

theorem sealed_image {b image : UInt8} (h : image? b = some image) (back : Bytes) :
    Sealed (image :: back) := by
  obtain ⟨hmark, hthird⟩ := image?_image h
  intro front hfront
  rcases front with _ | ⟨x, _ | ⟨y, _ | ⟨z, front⟩⟩⟩
  · exact absurd rfl hfront
  · exact atFront?_of_second_ne hmark
  · simp [atFront?, hthird]
  · rfl

/-- Replacing one trigraph first makes no difference. -/
theorem Rewrites.substitute_eq {s t : Bytes} (h : Rewrites s t) : substitute s = substitute t := by
  cases h with
  | @intro b image front back h =>
    have hkeep : atFront? (image :: back) = none := atFront?_of_ne (image?_image h).1
    rw [(sealed_marks (b :: back)).substitute_append, (sealed_image h back).substitute_append,
      substitute_trigraph h, substitute_keep hkeep]

theorem eq_substitute_of_rewrites {s t : Bytes} (h : ReflTransGen Rewrites s t)
    (ht : places t = []) : t = substitute s := by
  induction h using ReflTransGen.head_induction_on with
  | refl => exact (substitute_of_places ht).symm
  | head hstep _ ih => rw [ih, hstep.substitute_eq]

/-! ### Lines without two question marks side by side -/

theorem hasMarks_iff (s : Bytes) : hasMarks s = true ↔ [ch '?', ch '?'] <:+: s := by
  fun_induction hasMarks s with
  | case1 => simp
  | case2 b => simp [List.infix_cons_iff]
  | case3 q₁ q₂ rest ih =>
    have hfront : [ch '?', ch '?'] <+: q₁ :: q₂ :: rest ↔ q₁ = ch '?' ∧ q₂ = ch '?' := by
      rw [List.cons_prefix_cons, List.cons_prefix_cons, eq_comm, @eq_comm _ (ch '?') q₂]
      exact and_congr_right fun _ => and_iff_left List.nil_prefix
    rw [Bool.or_eq_true, ih, List.infix_cons_iff (a := q₁), hfront, Bool.and_eq_true, beq_iff_eq,
      beq_iff_eq]

theorem places_of_not_hasMarks {s : Bytes} (h : hasMarks s = false) : places s = [] := by
  induction s using scan_induction with
  | nil => rfl
  | keep b rest hb ih =>
    have hrest : hasMarks rest = false := by
      cases rest with
      | nil => rfl
      | cons c rest => exact (Bool.or_eq_false_iff.1 h).2
    rw [places_keep hb, ih hrest]
    rfl
  | trigraph b image rest hb ih => cases h

/-- The shortcut agrees with the scan. -/
theorem replace_eq_substitute (s : Bytes) : replace s = substitute s := by
  rw [replace]
  cases h : hasMarks s with
  | true => rfl
  | false => exact (substitute_of_places (places_of_not_hasMarks h)).symm

/-- **Replacement is complete, in whatever order, and leaves nothing to replace.** Each index of the
line is treated by what stands there, and trigraphs do not overlap. Replacing them one by one leads
to the same line in the end. No trigraph is left, so a second replacement changes nothing, and the
line gets shorter by two for each trigraph. Looking for two question marks first makes no
difference. -/
theorem replace_complete (s : Bytes) :
    replace s = (List.range s.length).flatMap (remains s) ∧
    (∀ i ∈ places s, ∀ j ∈ places s, i < j → i + 3 ≤ j) ∧
    ReflTransGen Rewrites s (replace s) ∧
    (∀ t, ReflTransGen Rewrites s t → places t = [] → t = replace s) ∧
    places (replace s) = [] ∧
    replace (replace s) = replace s ∧
    (replace s).length + 2 * (places s).length = s.length ∧
    (hasMarks s = true ↔ [ch '?', ch '?'] <:+: s) ∧
    replace s = substitute s := by
  have hscan := replace_eq_substitute s
  have hagain : replace (substitute s) = substitute s :=
    (replace_eq_substitute _).trans (substitute_of_places (places_substitute s))
  rw [hscan]
  exact ⟨substitute_eq_flatMap s, add_three_le_of_mem_places s, rewrites_substitute s,
    fun _ => eq_substitute_of_rewrites, places_substitute s, hagain, length_substitute s,
    hasMarks_iff s, rfl⟩

/-- Behind two more question marks, and with the second trigraph replaced first. -/
theorem replace_complete_marks :
    places (ascii "????(??!") = [2, 5] ∧
      ReflTransGen Rewrites (ascii "????(??!") (ascii "??[|") ∧
      ascii "??[|" = replace (ascii "????(??!") := by
  have hsecond : Rewrites (ascii "????(??!") (ascii "????(|") := .intro (ascii "????(") [] rfl
  have hfirst : Rewrites (ascii "????(|") (ascii "??[|") := .intro (ascii "??") (ascii "|") rfl
  have hboth : ReflTransGen Rewrites (ascii "????(??!") (ascii "??[|") :=
    .tail (.single hsecond) hfirst
  have hplaces : places (ascii "??[|") = [] := by decide
  exact ⟨by decide, hboth, (replace_complete _).2.2.2.1 _ hboth hplaces⟩

end MiniC.Trigraph
