import PoolMarket.Json.Basic
import PoolMarket.Json.Record

/-!
# Reading what was written

What is sent as text keeps its members in their order; what is sent as a free-form value has them
sorted before it is read. A record is read by the names of its fields, so in both forms it reads as
it was written as long as no name is repeated. A free-form value is one for good: sorting it again
changes nothing.

* `lookup_canonicalMembers` — sorting does not change what stands under a name.
* `nested_induction` — induction over a value through its items and members, in one statement where
  the definitions are three mutual functions.
* `canonical_canonical`, `depth_canonical_le` — sorting is idempotent and nests nothing deeper.
* `Form.carry`, `Reads` — a value sent in either form, and that it reads as what was written. The
  lemmas `reads_*` and `Record.*_eq` are combined once for each message.
-/

namespace PoolMarket.Json

/-! ## Members that are sorted in

`canonicalMembers` takes members one by one into a list that is sorted already. The inductions
therefore generalize that list, and say for each name whether it stands there or among the members
still to come; `record?` only asks by name, so nothing is said about positions. -/

/-- Looking up a name in a list that begins with a member: the two cases of every induction
below. -/
theorem lookup_member (key n : String) (v : Json) (rest : List (String × Json)) :
    ((n, v) :: rest).lookup key = if key = n then some v else rest.lookup key := by
  rw [List.lookup_cons]
  by_cases hkey : key = n
  · rw [if_pos hkey, beq_iff_eq.2 hkey]
  · rw [if_neg hkey, beq_eq_false_iff_ne.2 hkey]

/-- A member that was put in is found under its name, in place of any other of that name, and the
others are found as before. By induction on the members, with `lookup_member` for the first. -/
theorem lookup_insertMember (name : String) (value : Json) (members : List (String × Json))
    (key : String) :
    (insertMember name value members).lookup key =
      if key = name then some value else members.lookup key := by
  induction members with
  | nil => exact lookup_member key name value []
  | cons m rest ih =>
    obtain ⟨n, v⟩ := m
    unfold insertMember
    by_cases hlt : name < n
    · rw [if_pos hlt, lookup_member]
    · rw [if_neg hlt]
      -- an equal name loses its value, a later one is passed over
      by_cases hname : name = n
      · rw [if_pos hname, lookup_member, lookup_member]
        by_cases hkey : key = name
        · rw [if_pos hkey, if_pos hkey]
        · rw [if_neg hkey, if_neg hkey, if_neg fun heq => hkey (heq.trans hname.symm)]
      · rw [if_neg hname, lookup_member, lookup_member, ih]
        by_cases hkey : key = n
        · rw [if_pos hkey, if_pos hkey, if_neg fun heq => hname (heq.symm.trans hkey)]
        · rw [if_neg hkey, if_neg hkey]

/-- A new name comes in once, whatever its place. By induction, as `insertMember` goes to its
place. -/
theorem keys_insertMember {name : String} (value : Json) {members : List (String × Json)}
    (h : name ∉ members.map Prod.fst) :
    ((insertMember name value members).map Prod.fst).Perm (name :: members.map Prod.fst) := by
  induction members with
  | nil => exact .refl _
  | cons m rest ih =>
    obtain ⟨n, v⟩ := m
    have hne : ¬ name = n := fun heq => h (heq ▸ List.mem_cons_self)
    have hrest : name ∉ rest.map Prod.fst := fun hmem => h (List.mem_cons_of_mem _ hmem)
    unfold insertMember
    by_cases hlt : name < n
    · rw [if_pos hlt]
      exact .refl _
    · rw [if_neg hlt, if_neg hne]
      exact ((ih hrest).cons n).trans (.swap name n _)

/-- Names that are not repeated are all there after sorting, in some order, so the check for
repeated fields has the same outcome in both forms (`keys_insertMember`). -/
theorem keys_canonicalMembers {members sorted : List (String × Json)}
    (h : (members.map Prod.fst ++ sorted.map Prod.fst).Nodup) :
    ((canonicalMembers members sorted).map Prod.fst).Perm
      (members.map Prod.fst ++ sorted.map Prod.fst) := by
  induction members generalizing sorted with
  | nil =>
    rw [canonicalMembers]
    exact .refl _
  | cons m rest ih =>
    obtain ⟨n, j⟩ := m
    rw [canonicalMembers]
    obtain ⟨hnew, hrest⟩ := List.nodup_cons.1 h
    have hsorted : n ∉ sorted.map Prod.fst := fun hmem => hnew (List.mem_append_right _ hmem)
    have hkeys := keys_insertMember j.canonical hsorted
    -- the name goes from the members that are left to those that are sorted
    have hmoved : (rest.map Prod.fst ++ (insertMember n j.canonical sorted).map Prod.fst).Perm
        (n :: (rest.map Prod.fst ++ sorted.map Prod.fst)) :=
      (hkeys.append_left _).trans List.perm_middle
    exact (ih (hmoved.nodup_iff.2 h)).trans hmoved

/-- After sorting, a name has the sorted value of its member, or else what was there under it
before. If names are not repeated, no member takes the place of another. By induction on the
members, with `lookup_insertMember` for the first. -/
theorem lookup_canonicalMembers {members : List (String × Json)}
    (h : (members.map Prod.fst).Nodup) (sorted : List (String × Json)) (name : String) :
    (canonicalMembers members sorted).lookup name =
      ((members.lookup name).map canonical).or (sorted.lookup name) := by
  induction members generalizing sorted with
  | nil =>
    rw [canonicalMembers]
    rfl
  | cons m rest ih =>
    obtain ⟨n, j⟩ := m
    obtain ⟨hnew, hrest⟩ := List.nodup_cons.1 h
    rw [canonicalMembers, ih hrest, lookup_insertMember, lookup_member]
    by_cases hname : name = n
    · -- the name does not come again among the members that are left
      have hnone : rest.lookup name = none := by
        rw [List.lookup_eq_none_iff]
        intro p hp
        rw [bne_iff_ne]
        rintro rfl
        have hmem : p.1 ∈ rest.map Prod.fst := List.mem_map_of_mem hp
        exact hnew (hname ▸ hmem)
      rw [if_pos hname, if_pos hname, hnone]
      rfl
    · rw [if_neg hname, if_neg hname]

/-! ## A free-form value is one for good

Sorting visits every level, so the proofs go through the nested parts of a value first. Each of
them states that property for all parts and uses the flat description of `canonicalItems` and
`canonicalMembers` on top. -/

/-- A value is a leaf, or its parts come first. Used as an eliminator, it gives one hypothesis for
all items or members, so that no proof has to be mutual itself. By well-founded recursion on
`sizeOf`. -/
@[elab_as_elim]
theorem nested_induction {motive : Json → Prop} (j : Json)
    (leaf : ∀ j : Json, j.depth = 0 → motive j)
    (arr : ∀ items : List Json, (∀ j ∈ items, motive j) → motive (.arr items))
    (obj : ∀ members : List (String × Json), (∀ m ∈ members, motive m.2) → motive (.obj members)) :
    motive j := by
  match j with
  | .null | .bool _ | .num _ | .str _ | .unusable => exact leaf _ rfl
  | .arr items => exact arr items fun j _ => nested_induction j leaf arr obj
  | .obj members => exact obj members fun m _ => nested_induction m.2 leaf arr obj
termination_by j
decreasing_by
  · next hin =>
    have hsize := List.sizeOf_lt_of_mem hin
    simp only [Json.arr.sizeOf_spec]
    omega
  · next hin =>
    have hsize := List.sizeOf_lt_of_mem hin
    obtain ⟨n, j⟩ := m
    simp only [Json.obj.sizeOf_spec, Prod.mk.sizeOf_spec] at hsize ⊢
    omega

theorem canonical_of_leaf {j : Json} (h : j.depth = 0) : j.canonical = j := by
  cases j with
  | arr items => simp [depth] at h
  | obj members => simp [depth] at h
  | _ => rfl

/-- What stands among members after one was put in is that one or was there before. By induction on
the members, along `insertMember`. -/
theorem mem_insertMember {name : String} {value : Json} {members : List (String × Json)}
    {m : String × Json} (h : m ∈ insertMember name value members) :
    m = (name, value) ∨ m ∈ members := by
  induction members with
  | nil => exact Or.inl (List.mem_singleton.1 h)
  | cons x rest ih =>
    unfold insertMember at h
    split at h
    · exact List.mem_cons.1 h
    · split at h
      · rcases List.mem_cons.1 h with hnew | hin
        · exact Or.inl hnew
        · exact Or.inr (List.mem_cons_of_mem _ hin)
      · rcases List.mem_cons.1 h with hfirst | hin
        · exact Or.inr (hfirst ▸ List.mem_cons_self)
        · exact (ih hin).imp_right (List.mem_cons_of_mem _)

/-- Every sorted member is one that was there before or comes from a member of the object, under its
own name and with its value sorted (`mem_insertMember`). -/
theorem mem_canonicalMembers {members sorted : List (String × Json)} {m : String × Json}
    (h : m ∈ canonicalMembers members sorted) :
    (∃ x ∈ members, m = (x.1, x.2.canonical)) ∨ m ∈ sorted := by
  induction members generalizing sorted with
  | nil => exact Or.inr h
  | cons x rest ih =>
    rw [canonicalMembers] at h
    rcases ih h with ⟨y, hy, rfl⟩ | hsorted
    · exact Or.inl ⟨y, List.mem_cons_of_mem _ hy, rfl⟩
    · rcases mem_insertMember hsorted with rfl | hin
      · exact Or.inl ⟨x, List.mem_cons_self, rfl⟩
      · exact Or.inr hin

/-- The names stand in strict order. -/
def Sorted (members : List (String × Json)) : Prop := members.Pairwise fun a b => a.1 < b.1

/-- Putting a member in keeps the order: it goes in front of the first larger name, or in place of
its own. What is behind stays larger by `mem_insertMember`. -/
theorem Sorted.insertMember {members : List (String × Json)} (h : Sorted members) (name : String)
    (value : Json) : Sorted (Json.insertMember name value members) := by
  induction members with
  | nil => exact List.pairwise_singleton ..
  | cons x rest ih =>
    obtain ⟨n, v⟩ := x
    obtain ⟨hfirst, hrest⟩ := List.pairwise_cons.1 h
    unfold Json.insertMember
    by_cases hlt : name < n
    · rw [if_pos hlt]
      refine List.pairwise_cons.2 ⟨fun m hm => ?_, h⟩
      -- the members behind the new one come after the first, and so after the new name
      rcases List.mem_cons.1 hm with rfl | hin
      · exact hlt
      · exact String.lt_trans hlt (hfirst m hin)
    · rw [if_neg hlt]
      by_cases hname : name = n
      · rw [if_pos hname]
        exact List.pairwise_cons.2 ⟨fun m hm => hname ▸ hfirst m hm, hrest⟩
      · rw [if_neg hname]
        -- names are compared in a total order, so what is neither before nor equal comes after
        have hgt : n < name := by
          apply Classical.byContradiction
          intro hngt
          exact hname (String.le_antisymm (String.not_lt.1 hngt) (String.not_lt.1 hlt))
        refine List.pairwise_cons.2 ⟨fun m hm => ?_, ih hrest⟩
        -- what follows is the new member or one that was there
        rcases mem_insertMember hm with rfl | hin
        · exact hgt
        · exact hfirst m hin

/-- Sorting sorts, by induction with `Sorted.insertMember` as the step. -/
theorem sorted_canonicalMembers (members : List (String × Json)) {sorted : List (String × Json)}
    (h : Sorted sorted) : Sorted (canonicalMembers members sorted) := by
  induction members generalizing sorted with
  | nil => exact h
  | cons m rest ih =>
    rw [canonicalMembers]
    exact ih (h.insertMember _ _)

/-- A member whose name is larger than all goes to the end. It goes past each of them, as
`insertMember` compares names from the front. -/
theorem insertMember_of_lt {name : String} (value : Json) {members : List (String × Json)}
    (h : ∀ m ∈ members, m.1 < name) :
    insertMember name value members = members ++ [(name, value)] := by
  induction members with
  | nil => rfl
  | cons x rest ih =>
    have hx : x.1 < name := h x List.mem_cons_self
    have hne : name ≠ x.1 := by
      rintro rfl
      exact String.lt_irrefl _ hx
    rw [insertMember, if_neg (String.lt_asymm hx), if_neg hne,
      ih fun m hm => h m (List.mem_cons_of_mem _ hm), List.cons_append]

/-- Members that are sorted and free-form stay as they are: each in turn is larger than all that
were taken in before it (`insertMember_of_lt`). -/
theorem canonicalMembers_of_sorted {members sorted : List (String × Json)}
    (h : Sorted (sorted ++ members)) (hvalues : ∀ m ∈ members, m.2.canonical = m.2) :
    canonicalMembers members sorted = sorted ++ members := by
  induction members generalizing sorted with
  | nil => simp [canonicalMembers]
  | cons m rest ih =>
    have hbefore : ∀ x ∈ sorted, x.1 < m.1 := fun x hx =>
      (List.pairwise_append.1 h).2.2 x hx m List.mem_cons_self
    have hmoved : (sorted ++ [(m.1, m.2)]) ++ rest = sorted ++ m :: rest := by simp
    rw [canonicalMembers, hvalues m List.mem_cons_self, insertMember_of_lt m.2 hbefore,
      ih (hmoved ▸ h) fun x hx => hvalues x (List.mem_cons_of_mem _ hx), hmoved]

/-- Items are sorted one by one and keep their places. It is `List.map` in the form that the nested
recursion has. -/
theorem canonicalItems_map (items : List Json) : canonicalItems items = items.map canonical := by
  induction items with
  | nil => rfl
  | cons j rest ih => rw [canonicalItems, ih, List.map_cons]

/-- Sorting again changes nothing. The members of a sorted object are sorted and their values
free-form, by induction, which is the hypothesis of `canonicalMembers_of_sorted`. -/
theorem canonical_canonical (j : Json) : j.canonical.canonical = j.canonical := by
  induction j using nested_induction with
  | leaf j h => rw [canonical_of_leaf h, canonical_of_leaf h]
  | arr items ih =>
    rw [canonical, canonicalItems_map, canonical, canonicalItems_map, List.map_map]
    exact congrArg Json.arr (List.map_congr_left ih)
  | obj members ih =>
    have hsorted : Sorted (canonicalMembers members []) := sorted_canonicalMembers members .nil
    have hvalues : ∀ m ∈ canonicalMembers members [], m.2.canonical = m.2 := by
      intro m hm
      rcases mem_canonicalMembers hm with ⟨x, hx, rfl⟩ | hnone
      · exact ih x hx
      · cases hnone
    rw [canonical, canonical, canonicalMembers_of_sorted hsorted hvalues, List.nil_append]

/-- The depth of items is the least bound on each of them. -/
theorem depthItems_le {items : List Json} {d : Nat} :
    depthItems items ≤ d ↔ ∀ j ∈ items, j.depth ≤ d := by
  induction items with
  | nil => simp [depthItems]
  | cons j rest ih => rw [depthItems, Nat.max_le, ih, List.forall_mem_cons]

/-- The same for members; with `depthItems_le` it turns depth into a statement about all parts. -/
theorem depthMembers_le {members : List (String × Json)} {d : Nat} :
    depthMembers members ≤ d ↔ ∀ m ∈ members, m.2.depth ≤ d := by
  induction members with
  | nil => simp [depthMembers]
  | cons m rest ih => rw [depthMembers, Nat.max_le, ih, List.forall_mem_cons]

/-- Sorting does not nest a value deeper, so a value with room to be kept still has it
afterwards. By `nested_induction`; members that were replaced only make it less deep
(`mem_canonicalMembers`). -/
theorem depth_canonical_le (j : Json) : j.canonical.depth ≤ j.depth := by
  induction j using nested_induction with
  | leaf j h => exact Nat.le_of_eq (congrArg depth (canonical_of_leaf h))
  | arr items ih =>
    have hitems : depthItems (canonicalItems items) ≤ depthItems items := by
      rw [canonicalItems_map, depthItems_le]
      intro j hj
      obtain ⟨x, hx, rfl⟩ := List.mem_map.1 hj
      exact Nat.le_trans (ih x hx) (depthItems_le.1 (Nat.le_refl _) x hx)
    exact Nat.succ_le_succ hitems
  | obj members ih =>
    have hmembers : depthMembers (canonicalMembers members []) ≤ depthMembers members := by
      rw [depthMembers_le]
      intro m hm
      rcases mem_canonicalMembers hm with ⟨x, hx, rfl⟩ | hnone
      · exact Nat.le_trans (ih x hx) (depthMembers_le.1 (Nat.le_refl _) x hx)
      · cases hnone
    exact Nat.succ_le_succ hmembers

/-! ## Records

A record is read from the members that carry its names. In both forms these are found under them,
with values that were carried in the same form. -/

/-- Dropping the members with other names does not change what is found under a name of the record
(`lookup_member`). -/
theorem lookup_filter_names {names : List String} {name : String} (h : name ∈ names)
    (members : List (String × Json)) :
    (members.filter fun m => names.contains m.1).lookup name = members.lookup name := by
  induction members with
  | nil => rfl
  | cons m rest ih =>
    obtain ⟨n, j⟩ := m
    rw [List.filter_cons, lookup_member]
    by_cases hname : name = n
    · have hkept : names.contains n = true := List.contains_iff_mem.2 (hname ▸ h)
      rw [if_pos hkept, lookup_member, if_pos hname, if_pos hname]
    · rw [if_neg hname, ← ih]
      split
      · rw [lookup_member, if_neg hname]
      · rfl

/-- What becomes of a value when it is sent in a form: nothing in text, and sorting in a free-form
value. -/
def Form.carry : Form → Json → Json
  | .text, j => j
  | .value, j => j.canonical

/-- The fields of a record are found under their names, in either form. No name is found twice, as
sorting keeps the names (`keys_canonicalMembers`), and a field's value is the one that was written,
carried in the form (`lookup_canonicalMembers`). -/
theorem record?_carry (form : Form) (names : List String) (members : List (String × Json))
    (h : (members.map Prod.fst).Nodup) :
    ∃ r, (form.carry (.obj members)).record? names = some r ∧
      ∀ name ∈ names, r.find? name = (members.lookup name).map form.carry := by
  cases form with
  | text =>
    have hfields : ((members.filter fun m => names.contains m.1).map Prod.fst).Nodup :=
      h.sublist (List.filter_sublist.map _)
    refine ⟨_, by rw [Form.carry, record?]; exact if_pos hfields, fun name hname => ?_⟩
    rw [Record.find?, lookup_filter_names hname]
    cases members.lookup name <;> rfl
  | value =>
    -- sorting keeps the names, so none is found twice
    have hgiven : (members.map Prod.fst ++ ([] : List (String × Json)).map Prod.fst).Nodup := by
      rwa [List.map_nil, List.append_nil]
    have hnodup : ((canonicalMembers members []).map Prod.fst).Nodup :=
      (keys_canonicalMembers hgiven).nodup_iff.2 hgiven
    have hfields : (((canonicalMembers members []).filter fun m => names.contains m.1).map
        Prod.fst).Nodup := hnodup.sublist (List.filter_sublist.map _)
    refine ⟨_, by rw [Form.carry, canonical, record?]; exact if_pos hfields, fun name hname => ?_⟩
    rw [Record.find?, lookup_filter_names hname, lookup_canonicalMembers h, List.lookup_nil,
      Option.or_none]
    rfl

/-! ## Values that read as they were written

`Reads` is preserved by everything a message is built from: lists, pairs, optional and required
fields. A message is then read field by field, each field with the lemma for its kind. -/

/-- The value, sent in a form, reads as `a`. -/
def Reads {α : Type} (form : Form) (read : Json → Option α) (j : Json) (a : α) : Prop :=
  read (form.carry j) = some a

theorem Reads.canonical {α : Type} {read : Json → Option α} {j : Json} {a : α}
    (h : Reads .value read j a) : read j.canonical = some a := h

/-- Sorting makes no value `null` that was none, so an absent field stays the only absent one. -/
theorem carry_eq_null (form : Form) {j : Json} : form.carry j = .null ↔ j = .null := by
  cases form <;> cases j <;> simp [Form.carry, canonical]

/-- Items are carried one by one (`canonicalItems_map`). -/
theorem carry_arr (form : Form) (items : List Json) :
    form.carry (.arr items) = .arr (items.map form.carry) := by
  cases form with
  | text =>
    have hsame : Form.carry .text = id := rfl
    rw [hsame, List.map_id, id_eq]
  | value =>
    show Json.arr (canonicalItems items) = .arr (items.map canonical)
    rw [canonicalItems_map]

section Reads

variable {α : Type} {form : Form} {read : Json → Option α} {write : α → Json}

theorem reads_str (s : String) : Reads form string? (.str s) s := by
  cases form <;> rfl

theorem reads_bool (b : Bool) : Reads form bool? (.bool b) b := by
  cases form <;> rfl

/-- Two values read as they were written if each of them does (`carry_arr`). -/
theorem reads_both {b : Both α} (hfirst : Reads form read (write b.first) b.first)
    (hsecond : Reads form read (write b.second) b.second) :
    Reads form (both? read) (ofBoth write b) b := by
  unfold Reads at hfirst hsecond ⊢
  rw [ofBoth, carry_arr, List.map_cons, List.map_cons, List.map_nil, both?, hfirst, hsecond]
  rfl

/-- So does a list. By induction on its items, which `list?` reads in their order. -/
theorem reads_list {items : List α} (h : ∀ a ∈ items, Reads form read (write a) a) :
    Reads form (list? read) (ofList write items) items := by
  unfold Reads
  rw [ofList, carry_arr, list?]
  induction items with
  | nil => rfl
  | cons a rest ih =>
    have hfirst : read (form.carry (write a)) = some a := h a List.mem_cons_self
    have hrest := ih fun b hb => h b (List.mem_cons_of_mem _ hb)
    rw [List.map_cons, List.map_cons, List.mapM_cons, hfirst, hrest]
    rfl

/-- A value that may be missing reads as it was written, `null` for none, if no value is written as
`null`. -/
theorem nullable?_eq {x : Option α}
    (h : ∀ a, x = some a → Reads form read (write a) a ∧ write a ≠ .null) :
    Reads form (nullable? read) (ofOption write x) x := by
  unfold Reads
  cases x with
  | none => cases form <;> rfl
  | some a =>
    obtain ⟨hreads, hnull⟩ := h a rfl
    have hreads : read (form.carry (write a)) = some a := hreads
    rw [Ne, ← carry_eq_null form] at hnull
    rw [ofOption]
    generalize form.carry (write a) = c at hreads hnull
    cases c with
    | null => exact absurd rfl hnull
    | _ => exact congrArg (Option.map some) hreads

/-- A required field reads as it was written, once `record?_carry` has found it. -/
theorem Record.required_eq {r : Record} {name : String} {j : Json} {a : α}
    (hfind : r.find? name = some (form.carry j)) (h : Reads form read j a) :
    r.required name read = some a := by
  rw [Record.required, hfind]
  exact h

theorem Record.defaulted_eq {r : Record} {name : String} (value : α) {a : α} {j : Json}
    (hfind : r.find? name = some (form.carry j)) (h : Reads form read j a) :
    r.defaulted name value read = some a := by
  rw [Record.defaulted, hfind]
  exact h

/-- An optional field that is found is read as a value that may be `null`; leaving it out is the
other way to have none, and no writer does. -/
theorem Record.optional_of_find {r : Record} {name : String} {j : Json}
    (hfind : r.find? name = some j) : r.optional name read = nullable? read j := by
  rw [Record.optional, hfind]
  cases j <;> rfl

/-- An optional field reads as it was written, present or not (`nullable?_eq`). -/
theorem Record.optional_eq {r : Record} {name : String} {x : Option α}
    (hfind : r.find? name = some (form.carry (ofOption write x)))
    (h : ∀ a, x = some a → Reads form read (write a) a ∧ write a ≠ .null) :
    r.optional name read = some x := by
  rw [Record.optional_of_find hfind]
  exact nullable?_eq h

end Reads

end PoolMarket.Json
