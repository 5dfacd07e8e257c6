import MiniC.Proofs.Macro.LineByLine

/-!
# The macro table that options build

Options define macros by arguments such as `NAME=value` or `NAME`, and remove macros by name. The
arguments can be applied to the table in their order, or be collected first in a map with one value
for each name, which is then written as arguments again in byte order. `lookup?_table`: both tables
give the same macro for every name. A removed name has none, any other name has the value of the
last argument that assigns it one, and what is left are the built-in macros.

Both ways are compared with `lastValue?`. For the map this needs that no name comes twice in it
(`ordered_ofArguments`) and that no name holds a `=`, at which the written argument would be cut.
-/

namespace MiniC

namespace Bytes

variable {sep : UInt8} {s name : Bytes}

theorem cut?_append (h : sep ∉ name) (after : Bytes) :
    cut? sep (name ++ sep :: after) = some (name, after) := by
  have hall : ∀ b ∈ name, (b != sep) = true := by
    intro b hb
    rw [bne_iff_ne]
    rintro rfl
    exact h hb
  rw [cut?, List.dropWhile_append_of_pos hall, List.takeWhile_append_of_pos hall]
  simp

theorem cut?_of_notMem (h : sep ∉ s) : cut? sep s = none := by
  have hdrop : s.dropWhile (· != sep) = [] := by
    rw [List.dropWhile_eq_nil_iff]
    intro b hb
    rw [bne_iff_ne]
    rintro rfl
    exact h hb
  rw [cut?, hdrop]

end Bytes

/-- The first entry of a list of values by name. -/
theorem lookup_cons_ite {α : Type} (name : Bytes) (e : Bytes × α) (entries : List (Bytes × α)) :
    (e :: entries).lookup name = if name = e.1 then some e.2 else entries.lookup name := by
  obtain ⟨n, a⟩ := e
  rw [List.lookup_cons]
  by_cases h : name = n
  · rw [if_pos h, beq_iff_eq.2 h]
  · rw [if_neg h, beq_false_of_ne h]

namespace Macro

/-! ### What an argument assigns -/

/-- The argument gives the name a value: the text behind the first `=` to the name before it, and 1
to a name alone. -/
inductive Assigns : (argument name value : Bytes) → Prop
  | value {name value : Bytes} : ch '=' ∉ name → Assigns (name ++ ch '=' :: value) name value
  | alone {name : Bytes} : ch '=' ∉ name → Assigns name name (ascii "1")

theorem Assigns.parseOne {argument name value : Bytes} (h : Assigns argument name value) :
    Defines.parseOne argument = (name, value) := by
  unfold Defines.parseOne
  cases h with
  | value hname => rw [Bytes.cut?_append hname, Option.getD_some]
  | alone hname => rw [Bytes.cut?_of_notMem hname, Option.getD_none]

/-- Every argument assigns a value to one name. -/
theorem assigns_parseOne (argument : Bytes) :
    Assigns argument (Defines.parseOne argument).1 (Defines.parseOne argument).2 := by
  by_cases h : ch '=' ∈ argument
  · obtain ⟨name, value, rfl, hname⟩ := List.eq_append_cons_of_mem h
    have hassigns : Assigns (name ++ ch '=' :: value) name value := .value hname
    rw [hassigns.parseOne]
    exact hassigns
  · have hassigns : Assigns argument argument (ascii "1") := .alone h
    rw [hassigns.parseOne]
    exact hassigns

theorem notMem_of_assigns {argument name value : Bytes} (h : Assigns argument name value) :
    ch '=' ∉ name := by
  cases h with
  | value hname => exact hname
  | alone hname => exact hname

/-- The value that the last argument for the name assigns to it. -/
def lastValue? (arguments : List Bytes) (name : Bytes) : Option Bytes :=
  (arguments.map Defines.parseOne).reverse.lookup name

theorem lastValue?_cons (argument : Bytes) (arguments : List Bytes) (name : Bytes) :
    lastValue? (argument :: arguments) name = (lastValue? arguments name).or
      (if name = (Defines.parseOne argument).1 then some (Defines.parseOne argument).2
        else none) := by
  unfold lastValue?
  rw [List.map_cons, List.reverse_cons, List.lookup_append, lookup_cons_ite, List.lookup_nil]

theorem lastValue?_eq_none {arguments : List Bytes} {name : Bytes} :
    lastValue? arguments name = none ↔ ∀ a ∈ arguments, ∀ v, ¬ Assigns a name v := by
  induction arguments with
  | nil => exact iff_of_true rfl fun a ha => absurd ha List.not_mem_nil
  | cons a arguments ih =>
    rw [lastValue?_cons, Option.or_eq_none_iff, ih, List.forall_mem_cons, and_comm]
    refine and_congr_left fun _ => ?_
    constructor
    · intro h v hv
      rw [if_pos (by rw [hv.parseOne])] at h
      cases h
    · intro h
      refine if_neg fun hname => h (Defines.parseOne a).2 ?_
      rw [hname]
      exact assigns_parseOne a

/-- There is a last argument for a name with a value. -/
theorem exists_last {arguments : List Bytes} {name value : Bytes}
    (h : lastValue? arguments name = some value) :
    ∃ before argument after, arguments = before ++ argument :: after ∧
      Assigns argument name value ∧ ∀ a ∈ after, ∀ v, ¬ Assigns a name v := by
  induction arguments with
  | nil => cases h
  | cons a arguments ih =>
    rw [lastValue?_cons] at h
    cases hlast : lastValue? arguments name with
    | some v =>
      rw [hlast, Option.some_or] at h
      obtain ⟨before, argument, after, rfl, hassigns, hafter⟩ := ih (hlast.trans h)
      exact ⟨a :: before, argument, after, rfl, hassigns, hafter⟩
    | none =>
      rw [hlast, Option.none_or] at h
      split_ifs at h with hname
      refine ⟨[], a, arguments, rfl, ?_, lastValue?_eq_none.1 hlast⟩
      rw [hname, ← Option.some.inj h]
      exact assigns_parseOne a

/-! ### Arguments in order -/

namespace Table

variable {t : Table} {name : Bytes}

theorem defineOption_eq (t : Table) (argument : Bytes) : t.defineOption argument =
    t.define (Defines.parseOne argument).1 (Defines.parseOne argument).2 := by
  unfold defineOption Defines.parseOne
  cases Bytes.cut? (ch '=') argument <;> rfl

theorem lookup?_undefine (t : Table) (removed name : Bytes) :
    (t.undefine removed).lookup? name = if name = removed then none else t.lookup? name := by
  unfold lookup? undefine
  dsimp only
  induction t.entries with
  | nil => simp
  | cons e entries ih =>
    by_cases he : e.1 = removed
    · rw [List.filter_cons_of_neg (by simp [he]), ih, lookup_cons_ite, he]
      by_cases h : name = removed
      · rw [if_pos h, if_pos h]
      · rw [if_neg h, if_neg h, if_neg h]
    · rw [List.filter_cons_of_pos (by simp [he]), lookup_cons_ite, lookup_cons_ite, ih]
      by_cases h : name = e.1
      · rw [if_pos h, if_pos h, if_neg (by rw [h]; exact he)]
      · rw [if_neg h, if_neg h]

/-- **Of the definitions of a name the last one counts.** -/
theorem lookup?_foldl_defineOption (arguments : List Bytes) : ∀ t : Table,
    (arguments.foldl defineOption t).lookup? name =
      ((lastValue? arguments name).map replacementOf).or (t.lookup? name) := by
  induction arguments with
  | nil => exact fun t => rfl
  | cons a arguments ih =>
    intro t
    rw [List.foldl_cons, ih, defineOption_eq, define, lookup?_set, lastValue?_cons]
    cases lastValue? arguments name with
    | some v => simp
    | none =>
      by_cases h : name = (Defines.parseOne a).1
      · rw [if_pos h, if_pos h]
        rfl
      · rw [if_neg h, if_neg h]
        rfl

theorem lookup?_foldl_undefine (removed : List Bytes) : ∀ t : Table,
    (removed.foldl undefine t).lookup? name = if name ∈ removed then none else t.lookup? name := by
  induction removed with
  | nil => exact fun t => by simp
  | cons n removed ih =>
    intro t
    rw [List.foldl_cons, ih, lookup?_undefine]
    by_cases hmem : name ∈ removed
    · rw [if_pos hmem, if_pos (List.mem_cons_of_mem n hmem)]
    · rw [if_neg hmem]
      simp only [List.mem_cons, hmem, or_false]

theorem lookup?_applyOptions (t : Table) (arguments removed : List Bytes) (name : Bytes) :
    (t.applyOptions arguments removed).lookup? name = if name ∈ removed then none else
      ((lastValue? arguments name).map replacementOf).or (t.lookup? name) := by
  rw [applyOptions, lookup?_foldl_undefine, lookup?_foldl_defineOption]

theorem clock_foldl {step : Table → Bytes → Table} (h : ∀ t a, (step t a).clock = t.clock)
    (l : List Bytes) : ∀ t : Table, (l.foldl step t).clock = t.clock := by
  induction l with
  | nil => exact fun _ => rfl
  | cons a l ih => exact fun t => (ih (step t a)).trans (h t a)

theorem clock_applyOptions (t : Table) (arguments removed : List Bytes) :
    (t.applyOptions arguments removed).clock = t.clock := by
  have hdefine : ∀ (t : Table) a, (t.defineOption a).clock = t.clock := by
    intro t a
    rw [defineOption_eq]
    rfl
  have hremove : ∀ (t : Table) n, (t.undefine n).clock = t.clock := fun _ _ => rfl
  rw [applyOptions, clock_foldl hremove, clock_foldl hdefine]

end Table

/-! ### Arguments collected in a map -/

namespace Defines

variable {d : Defines} {name value : Bytes}

/-- The names are in byte order, and so none of them is there twice. -/
def Ordered (d : Defines) : Prop := d.Pairwise fun e f => e.1 < f.1

theorem lookup_set (name value : Bytes) (d : Defines) (other : Bytes) :
    (set name value d).lookup other = if other = name then some value else d.lookup other := by
  induction d with
  | nil => rw [set, lookup_cons_ite]
  | cons e d ih =>
    obtain ⟨n, v⟩ := e
    rw [set]
    by_cases hn : name = n
    · rw [if_pos hn, lookup_cons_ite, lookup_cons_ite, hn]
      by_cases h : other = n
      · rw [if_pos h, if_pos h]
      · rw [if_neg h, if_neg h, if_neg h]
    · rw [if_neg hn]
      by_cases hlt : name < n
      · rw [if_pos hlt, lookup_cons_ite]
      · rw [if_neg hlt, lookup_cons_ite, lookup_cons_ite, ih]
        by_cases h : other = n
        · rw [if_pos h, if_pos h, if_neg (by rw [h]; exact fun h' => hn h'.symm)]
        · rw [if_neg h, if_neg h]

theorem mem_set {e : Bytes × Bytes} (h : e ∈ set name value d) : e = (name, value) ∨ e ∈ d := by
  induction d with
  | nil => exact .inl (List.mem_singleton.1 h)
  | cons f d ih =>
    obtain ⟨n, v⟩ := f
    rw [set] at h
    split_ifs at h
    · rcases List.mem_cons.1 h with h | h
      · exact .inl h
      · exact .inr (List.mem_cons_of_mem _ h)
    · exact List.mem_cons.1 h
    · rcases List.mem_cons.1 h with h | h
      · exact .inr (h ▸ List.mem_cons_self)
      · exact (ih h).imp_right (List.mem_cons_of_mem _)

/-- Setting a value keeps the order. -/
theorem Ordered.set (h : d.Ordered) (name value : Bytes) : (set name value d).Ordered := by
  induction d with
  | nil => exact List.pairwise_singleton _ _
  | cons f d ih =>
    obtain ⟨n, v⟩ := f
    obtain ⟨hfirst, hrest⟩ := List.pairwise_cons.1 h
    rw [Defines.set]
    split_ifs with hn hlt
    · exact List.pairwise_cons.2 ⟨fun e he => hn ▸ hfirst e he, hrest⟩
    · refine List.pairwise_cons.2 ⟨fun e he => ?_, h⟩
      rcases List.mem_cons.1 he with rfl | he
      · exact hlt
      · exact List.lt_trans hlt (hfirst e he)
    · have hgt : n < name := by
        by_contra hnot
        exact hn (List.le_antisymm (List.not_lt.1 hnot) (List.not_lt.1 hlt))
      refine List.pairwise_cons.2 ⟨fun e he => ?_, ih hrest⟩
      rcases mem_set he with rfl | he
      · exact hgt
      · exact hfirst e he

/-- A map in order gives every name the value of its last entry. -/
theorem Ordered.lookup_reverse (h : d.Ordered) (name : Bytes) :
    d.reverse.lookup name = d.lookup name := by
  induction d with
  | nil => rfl
  | cons e d ih =>
    obtain ⟨n, v⟩ := e
    obtain ⟨hfirst, hrest⟩ := List.pairwise_cons.1 h
    rw [List.reverse_cons, List.lookup_append, ih hrest, lookup_cons_ite, lookup_cons_ite]
    by_cases hn : name = n
    · have hnone : d.lookup name = none := by
        rw [List.lookup_eq_none_iff]
        intro e he
        have hlt := hfirst e he
        rw [← hn] at hlt
        rw [bne_iff_ne]
        intro heq
        rw [← heq] at hlt
        exact List.lt_irrefl _ hlt
      rw [hnone, Option.none_or, if_pos hn, if_pos hn]
    · rw [if_neg hn, if_neg hn, List.lookup_nil, Option.or_none]

theorem ofArguments_concat (arguments : List Bytes) (argument : Bytes) :
    ofArguments (arguments ++ [argument]) =
      set (parseOne argument).1 (parseOne argument).2 (ofArguments arguments) := by
  simp [ofArguments]

theorem ordered_ofArguments (arguments : List Bytes) : (ofArguments arguments).Ordered := by
  induction arguments using List.reverseRecOn with
  | nil => exact List.Pairwise.nil
  | append_singleton arguments a ih =>
    rw [ofArguments_concat]
    exact ih.set _ _

theorem lookup_ofArguments (arguments : List Bytes) (name : Bytes) :
    (ofArguments arguments).lookup name = lastValue? arguments name := by
  induction arguments using List.reverseRecOn with
  | nil => rfl
  | append_singleton arguments a ih =>
    rw [ofArguments_concat, lookup_set, ih]
    unfold lastValue?
    rw [List.map_append, List.reverse_append, List.map_singleton, List.reverse_singleton,
      List.singleton_append, lookup_cons_ite]

theorem notMem_of_mem_ofArguments {arguments : List Bytes} {e : Bytes × Bytes}
    (h : e ∈ ofArguments arguments) : ch '=' ∉ e.1 := by
  induction arguments using List.reverseRecOn with
  | nil => cases h
  | append_singleton arguments a ih =>
    rw [ofArguments_concat] at h
    rcases mem_set h with rfl | h
    · exact notMem_of_assigns (assigns_parseOne a)
    · exact ih h

/-- The written arguments assign what the map holds. -/
theorem map_parseOne_toArguments (h : ∀ e ∈ d, ch '=' ∉ e.1) :
    d.toArguments.map parseOne = d := by
  rw [toArguments, List.map_map]
  conv_rhs => rw [← List.map_id d]
  exact List.map_congr_left fun e he => (Assigns.value (h e he)).parseOne

/-- **Collecting the arguments changes no last value.** -/
theorem lastValue?_toArguments (arguments : List Bytes) (name : Bytes) :
    lastValue? (ofArguments arguments).toArguments name = lastValue? arguments name := by
  rw [← lookup_ofArguments arguments, ← (ordered_ofArguments arguments).lookup_reverse]
  unfold lastValue?
  rw [map_parseOne_toArguments fun e he => notMem_of_mem_ofArguments he]

end Defines

/-! ### Both tables -/

theorem lookup?_initial_eq_some {clock : Clock} {name : Bytes} {r : Replacement} :
    (Table.initial clock).lookup? name = some r ↔ (name, r) ∈ Table.builtins := by
  constructor
  · intro h
    obtain ⟨before, after, hentries, -⟩ := List.lookup_eq_some_iff.1 h
    rw [show Table.builtins = _ from hentries]
    simp
  · intro h
    simp only [Table.builtins, List.mem_cons, List.not_mem_nil, or_false, Prod.mk.injEq] at h
    rcases h with ⟨rfl, rfl⟩ | ⟨rfl, rfl⟩ | ⟨rfl, rfl⟩ | ⟨rfl, rfl⟩ <;> rfl

/-- **The table does not depend on how the arguments get there.** It is the same for arguments that
are collected in a map and written again as for arguments applied in order. A removed name has no
macro. Any other name to which an argument assigns a value has the trimmed value of the last such
argument, and is a flag if nothing is left of it. A name without argument has a macro only if it is
one of the four built-in ones. -/
theorem lookup?_table (arguments removed : List Bytes) (clock : Clock) (name : Bytes) :
    let t := Options.table ⟨Defines.ofArguments arguments, removed, clock⟩
    let direct := (Table.initial clock).applyOptions arguments removed
    (t.lookup? name = direct.lookup? name ∧ t.clock = direct.clock) ∧
    (name ∈ removed → t.lookup? name = none) ∧
    (name ∉ removed → (∃ a ∈ arguments, ∃ v, Assigns a name v) →
      ∃ before argument after value, arguments = before ++ argument :: after ∧
        Assigns argument name value ∧ (∀ a ∈ after, ∀ v, ¬ Assigns a name v) ∧
        t.lookup? name =
          some (if Trim.both value = [] then .flag else .object (Trim.both value))) ∧
    (name ∉ removed → (∀ a ∈ arguments, ∀ v, ¬ Assigns a name v) →
      ∀ r, t.lookup? name = some r ↔
        (name, r) ∈ [(ascii "__FILE__", .builtin .file), (ascii "__LINE__", .builtin .line),
          (ascii "__DATE__", .builtin .date), (ascii "__TIME__", .builtin .time)]) := by
  intro t direct
  have ht : t.lookup? name = direct.lookup? name := by
    unfold t direct Options.table
    rw [Table.lookup?_applyOptions, Table.lookup?_applyOptions, Defines.lastValue?_toArguments]
  have hclock : t.clock = direct.clock := by
    unfold t direct Options.table
    rw [Table.clock_applyOptions, Table.clock_applyOptions]
  refine ⟨⟨ht, hclock⟩, ?_, ?_, ?_⟩
  · intro hremoved
    rw [ht, Table.lookup?_applyOptions, if_pos hremoved]
  · rintro hkept ⟨a, ha, v, hv⟩
    cases hlast : lastValue? arguments name with
    | none => exact absurd hv (lastValue?_eq_none.1 hlast a ha v)
    | some value =>
      obtain ⟨before, argument, after, harguments, hassigns, hafter⟩ := exists_last hlast
      refine ⟨before, argument, after, value, harguments, hassigns, hafter, ?_⟩
      rw [ht, Table.lookup?_applyOptions, if_neg hkept, hlast]
      rfl
  · intro hkept hnone r
    rw [ht, Table.lookup?_applyOptions, if_neg hkept, lastValue?_eq_none.2 hnone]
    exact lookup?_initial_eq_some

end Macro

end MiniC
