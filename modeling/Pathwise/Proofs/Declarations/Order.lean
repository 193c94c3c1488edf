import Pathwise.Proofs.Declarations.Lines

/-!
# Pathwise.Proofs.Declarations.Order

The declarations of a repository come in a usable order
(`TypeRepository.declarations_inOrder`): `TypeRepository.InOrder` says what its
commands introduce, and in which order. Each part of it is proved of the groups
in which sentences are declared, from what readers find in one group and from how
groups follow each other.
-/

namespace Pathwise

namespace TypeRepository

/-! ## lists -/

theorem ne_singleton_of_mem {α : Type} {l : List α} {a b : α} (ha : a ∈ l) (hb : b ∈ l)
    (hne : a ≠ b) (c : α) : l ≠ [c] := by
  rintro rfl
  exact hne ((List.mem_singleton.1 ha).trans (List.mem_singleton.1 hb).symm)

theorem filter_filterMap_eq {α β κ : Type} [DecidableEq κ] {part : α → Option β} {key : β → κ}
    {l : List α} (hl : l.Nodup) {a : α} {b : β} (ha : a ∈ l) (hb : part a = some b)
    (hkey : ∀ x ∈ l, ∀ c, part x = some c → key c = key b → x = a) :
    (l.filterMap part).filter (key · = key b) = [b] := by
  induction l with
  | nil => contradiction
  | cons x l ih =>
      rw [List.nodup_cons] at hl
      rw [List.forall_mem_cons] at hkey
      by_cases hx : x = a
      · subst hx
        have hrest : (l.filterMap part).filter (key · = key b) = [] := by
          refine List.filter_eq_nil_iff.2 fun c hc heq => ?_
          obtain ⟨y, hy, hpart⟩ := List.mem_filterMap.1 hc
          exact hl.1 (hkey.2 y hy c hpart (by simpa using heq) ▸ hy)
        rw [List.filterMap_cons_some hb, List.filter_cons_of_pos (by simp), hrest]
      · have hrest := ih hl.2 (List.mem_of_ne_of_mem (Ne.symm hx) ha) hkey.2
        cases hpart : part x with
        | none =>
            rw [List.filterMap_cons_none hpart]
            exact hrest
        | some c =>
            have hne : key c ≠ key b := fun heq => hx (hkey.1 c hpart heq)
            rw [List.filterMap_cons_some hpart, List.filter_cons_of_neg (by simpa using hne)]
            exact hrest

/-- A command among those of several groups stands in one of them. -/
theorem exists_of_flatMap_eq {α β : Type} {f : α → List β} {l : List α} {front back : List β}
    {line : β} (h : l.flatMap f = front ++ line :: back) : ∃ before a after pre post,
      l = before ++ a :: after ∧ f a = pre ++ line :: post ∧ front = before.flatMap f ++ pre := by
  induction l generalizing front with
  | nil => simp at h
  | cons a l ih =>
      rw [List.flatMap_cons] at h
      obtain ⟨rest, rfl, hrest⟩ | ⟨rest, ha, hrest⟩ := List.append_eq_append_iff.1 h
      · obtain ⟨before, b, after, pre, post, rfl, hb, rfl⟩ := ih hrest
        exact ⟨a :: before, b, after, pre, post, rfl, hb, by simp⟩
      · cases rest with
        | nil =>
            rw [List.append_nil] at ha
            have hnext : l.flatMap f = [] ++ line :: back := hrest.symm
            obtain ⟨before, b, after, pre, post, rfl, hb, hpre⟩ := ih hnext
            exact ⟨a :: before, b, after, pre, post, rfl, hb, by simp [ha, ← hpre]⟩
        | cons line' rest =>
            obtain ⟨rfl, -⟩ := List.cons.inj hrest
            exact ⟨[], a, l, front, rest, rfl, ha, rfl⟩

/-! ## all groups -/

/-- Commands that introduce what is stored, everything once and after what it needs. -/
structure InOrder (r : TypeRepository) (lines : List Sexp) : Prop where
  datatype : ∀ t s body, r.find? t = some s → s.datatypeBody? = some body →
    (lines.flatMap Sexp.datatypes).filter (·.head? = some s.name) = [body]
  array : ∀ t s, r.find? t = some s → s.isArray = true →
    (lines.flatMap Sexp.sortDefinitions).filter (·.1 = s.name) = [(s.name, s.sort)]
  tag : ∀ t s, r.find? t = some s → s.isReference = true →
    (lines.flatMap Sexp.declared).filter (· = s.tag) = [s.tag]
  base : ∀ t s b, r.find? t = some s → s.base = some b →
    (lines.flatMap Sexp.subtypes).filter (·.1 = s.tag) = [(s.tag, b.tag)]
  /-- The sorts that a declaration names are scalars, introduced earlier or by the same command. -/
  references : ∀ t s front line back, r.find? t = some s → lines = front ++ line :: back →
    s.name ∈ line.sorts → ∀ u ∈ s.references, ¬u.IsReference ∨
      (∃ earlier ∈ front, u.symbol ∈ earlier.sorts) ∨ u.symbol ∈ line.datatypes.filterMap Sexp.head?
  /-- Tags are ordered after both have been introduced. -/
  tagged : ∀ front line back a b, lines = front ++ line :: back → (a, b) ∈ line.subtypes →
    (∃ earlier ∈ front, a ∈ earlier.declared) ∧ ∃ earlier ∈ front, b ∈ earlier.declared
  /-- Datatypes share a command if and only if their types lead to each other. -/
  together : ∀ t u s x, r.find? t = some s → r.find? u = some x → t ≠ u →
    ((∃ line ∈ lines, s.DeclaredIn line ∧ x.DeclaredIn line) ↔ r.Entwined t u)

variable {r : TypeRepository}

theorem Declarable.eq_of_name (hr : r.Declarable) {t u : TypeRef} {s x : Sentence}
    (hs : r.find? t = some s) (hx : r.find? u = some x) (h : s.name = x.name) : s = x := by
  obtain ⟨rfl, -⟩ := hr.built.encoded hs
  obtain ⟨rfl, -⟩ := hr.built.encoded hx
  have htype := hr.symbols _ _ (Option.isSome_iff_exists.2 ⟨s, hs⟩)
    (Option.isSome_iff_exists.2 ⟨x, hx⟩) h
  exact Option.some.inj (hs.symm.trans (htype ▸ hx))

theorem Declarable.eq_of_tag (hr : r.Declarable) {t u : TypeRef} {s x : Sentence}
    (hs : r.find? t = some s) (hx : r.find? u = some x) (h : s.tag = x.tag) : s = x :=
  hr.eq_of_name hs hx ((String.append_left_inj _).1 h)

namespace Grouping

variable {groups : List (List Sentence)} (hr : r.Declarable) (hgroups : r.Grouping groups)
  {s : Sentence} {t : TypeRef} {X : List Sentence} {line : Sexp}

include hr hgroups

theorem isGroup (hX : X ∈ groups) : IsGroup X where
  encoded _ hs := (hr.built.encoded (hgroups.find?_of_mem hr hX hs)).2
  kind := hgroups.single_or_datatypes hr hX

/-! ### everything once -/

/-- What a sentence contributes to what a reader finds is found once. -/
theorem once {α κ : Type} [DecidableEq κ] {read : Sexp → List α} {part : Sentence → Option α}
    (hread : ∀ X, IsGroup X → (jointDeclarations X).flatMap read = X.filterMap part) (key : α → κ)
    {a : α} (hs : r.find? t = some s) (ha : part s = some a)
    (hkey : ∀ u x b, r.find? u = some x → part x = some b → key b = key a → x = s) :
    ((groups.flatMap jointDeclarations).flatMap read).filter (key · = key a) = [a] := by
  have hall : (groups.flatMap jointDeclarations).flatMap read = groups.flatten.filterMap part := by
    rw [List.flatMap_assoc, List.filterMap_flatten, List.flatMap_def]
    exact congrArg _ (List.map_congr_left fun X hX => hread X (hgroups.isGroup hr hX))
  have hnodup : groups.flatten.Nodup := hgroups.perm.nodup_iff.2 hr.built.nodup_types.of_map
  rw [hall]
  refine filter_filterMap_eq hnodup (List.mem_flatten.2 (hgroups.exists_mem hr hs)) ha
    fun x hx b hb heq => ?_
  exact hkey x.type x b (hr.built.mem_sorted.1 (hgroups.perm.mem_iff.1 hx)) hb heq

theorem datatype_once {body : Sexp} (hs : r.find? t = some s)
    (hbody : s.datatypeBody? = some body) :
    ((groups.flatMap jointDeclarations).flatMap Sexp.datatypes).filter
      (·.head? = some s.name) = [body] := by
  have hname := Sentence.head?_of_datatypeBody? hbody
  rw [← hname]
  refine hgroups.once hr (fun X hX => (read_jointDeclarations hX).1) Sexp.head? hs hbody ?_
  intro u x b hx hb heq
  rw [Sentence.head?_of_datatypeBody? hb, hname] at heq
  exact hr.eq_of_name hx hs (Option.some.inj heq)

theorem array_once (hs : r.find? t = some s) (harray : s.isArray = true) :
    ((groups.flatMap jointDeclarations).flatMap Sexp.sortDefinitions).filter
      (·.1 = s.name) = [(s.name, s.sort)] := by
  have hpart : s.sortDefinition? = some (s.name, s.sort) := if_pos harray
  refine hgroups.once hr (fun X hX => (read_jointDeclarations hX).2.1) Prod.fst hs hpart ?_
  intro u x b hx hb heq
  obtain ⟨-, hb⟩ := Option.ite_none_right_eq_some.1 hb
  obtain rfl := Option.some.inj hb
  exact hr.eq_of_name hx hs heq

theorem tag_once (hs : r.find? t = some s) (href : s.isReference = true) :
    ((groups.flatMap jointDeclarations).flatMap Sexp.declared).filter (· = s.tag) = [s.tag] := by
  have hpart : s.tag? = some s.tag := if_pos href
  refine hgroups.once hr (fun X hX => (read_jointDeclarations hX).2.2.1) id hs hpart ?_
  intro u x b hx hb heq
  obtain ⟨-, hb⟩ := Option.ite_none_right_eq_some.1 hb
  obtain rfl := Option.some.inj hb
  exact hr.eq_of_tag hx hs heq

theorem base_once {t b : TypeRef} (hs : r.find? t = some s) (hb : s.base = some b) :
    ((groups.flatMap jointDeclarations).flatMap Sexp.subtypes).filter
      (·.1 = s.tag) = [(s.tag, b.tag)] := by
  have hpart : s.subtype? = some (s.tag, b.tag) := by simp [Sentence.subtype?, hb]
  refine hgroups.once hr (fun X hX => (read_jointDeclarations hX).2.2.2) Prod.fst hs hpart ?_
  intro u x pair hx hpair heq
  obtain ⟨b', -, rfl⟩ := Option.map_eq_some_iff.1 hpair
  exact hr.eq_of_tag hx hs heq

/-! ### everything after what it needs -/

/-- What a sentence has to come after is in its group or in an earlier one. -/
theorem mem_or_before {before after : List (List Sentence)} (hsplit : groups = before ++ X :: after)
    {u : TypeRef} {s x : Sentence} (hs : s ∈ X) (hx : r.find? u = some x) (hu : u ∈ precursors s) :
    x ∈ X ∨ ∃ Y ∈ before, x ∈ Y := by
  obtain ⟨rfl, -⟩ := hr.built.encoded hx
  obtain ⟨Y, hY, hxY⟩ := hgroups.exists_mem hr hx
  have horder := hgroups.order
  rw [hsplit, List.pairwise_append, List.pairwise_cons] at horder
  rw [hsplit, List.mem_append, List.mem_cons] at hY
  obtain hY | rfl | hY := hY
  · exact Or.inr ⟨Y, hY, hxY⟩
  · exact Or.inl hxY
  · exact absurd hu (horder.2.1.1 Y hY s hs x hxY)

theorem references_before {front back : List Sexp} (hs : r.find? t = some s)
    (hlines : groups.flatMap jointDeclarations = front ++ line :: back)
    (hline : s.name ∈ line.sorts) {u : TypeRef} (hu : u ∈ s.references) : ¬u.IsReference ∨
      (∃ earlier ∈ front, u.symbol ∈ earlier.sorts) ∨
        u.symbol ∈ line.datatypes.filterMap Sexp.head? := by
  obtain ⟨before, X, after, pre, post, hsplit, hX, rfl⟩ := exists_of_flatMap_eq hlines
  have hmem : X ∈ groups := hsplit ▸ by simp
  have hgroup := hgroups.isGroup hr hmem
  have hinX : line ∈ jointDeclarations X := hX ▸ by simp
  have hsX : s ∈ X := by
    obtain ⟨s', hs', hname⟩ := exists_of_mem_sorts hgroup hinX hline
    rwa [← hr.eq_of_name (hgroups.find?_of_mem hr hmem hs') hs hname]
  have hprecursor : u ∈ precursors s := List.mem_append_left _ hu
  obtain ⟨x, hx⟩ := hr.exists_of_mem_precursors hs hprecursor
  obtain ⟨rfl, hencoded⟩ := hr.built.encoded hx
  by_cases href : x.isReference = true
  swap
  · exact Or.inl fun h => href (hencoded.isReference_iff.2 h)
  refine Or.inr ?_
  obtain hxX | ⟨Y, hY, hxY⟩ := hgroups.mem_or_before hr hsplit hsX hx hprecursor
  · -- two sentences of one group: the command for its sorts introduces both
    refine Or.inr ?_
    have hne : s ≠ x := by
      rintro rfl
      exact ((hr.built.encoded hs).2.exists_dependency hu).1 rfl
    have hseveral := ne_singleton_of_mem hsX hxX hne
    have hsorts := mem_sortLines_of_mem_sorts hgroup hinX hline
    rw [sortLines_of_ne hseveral, List.mem_singleton] at hsorts
    have hdatatype := hgroups.hasDatatype_of_mem hr hmem hxX hsX (Ne.symm hne)
    obtain ⟨body, hbody, hname⟩ := Sentence.datatypeBody?_of_hasDatatype hdatatype
    rw [hsorts]
    exact List.mem_filterMap.2 ⟨body, List.mem_filterMap.2 ⟨x, hxX, hbody⟩, hname⟩
  · refine Or.inl ?_
    have hYgroup := hgroups.isGroup hr (X := Y) (hsplit ▸ List.mem_append_left _ hY)
    obtain ⟨earlier, hearlier, hsort⟩ := mem_sorts_of_mem_sortLines hYgroup hxY href
    refine ⟨earlier, List.mem_append_left _ (List.mem_flatMap.2 ⟨Y, hY, ?_⟩), hsort⟩
    rw [jointDeclarations_eq hYgroup]
    exact List.mem_append_left _ hearlier

theorem tagLine_before {before after : List (List Sentence)}
    (hsplit : groups = before ++ X :: after) {pre post : List Sexp}
    (hX : jointDeclarations X = pre ++ line :: post) (hline : line.subtypes ≠ []) {x : Sentence}
    (href : x.isReference = true) (hx : x ∈ X ∨ ∃ Y ∈ before, x ∈ Y) :
    x.tagLine ∈ before.flatMap jointDeclarations ++ pre := by
  have hmem : X ∈ groups := hsplit ▸ by simp
  have hgroup := hgroups.isGroup hr hmem
  obtain hx | ⟨Y, hY, hx⟩ := hx
  · exact List.mem_append_right _ (tagLine_mem_of_subtypes hgroup hX hline hx href)
  · have hYgroup := hgroups.isGroup hr (X := Y) (hsplit ▸ List.mem_append_left _ hY)
    refine List.mem_append_left _ (List.mem_flatMap.2 ⟨Y, hY, ?_⟩)
    rw [jointDeclarations_eq hYgroup]
    exact List.mem_append_right _ (List.mem_append_left _ (tagLine_mem hx href))

theorem tags_before {front back : List Sexp} {a b : String}
    (hlines : groups.flatMap jointDeclarations = front ++ line :: back)
    (hline : (a, b) ∈ line.subtypes) :
    (∃ earlier ∈ front, a ∈ earlier.declared) ∧ ∃ earlier ∈ front, b ∈ earlier.declared := by
  obtain ⟨before, X, after, pre, post, hsplit, hX, rfl⟩ := exists_of_flatMap_eq hlines
  have hmem : X ∈ groups := hsplit ▸ by simp
  have hpair : (a, b) ∈ X.filterMap (·.subtype?) := by
    rw [← (read_jointDeclarations (hgroups.isGroup hr hmem)).2.2.2]
    exact List.mem_flatMap.2 ⟨line, hX ▸ by simp, hline⟩
  obtain ⟨s, hs, hpair⟩ := List.mem_filterMap.1 hpair
  obtain ⟨c, hc, heq⟩ := Option.map_eq_some_iff.1 hpair
  obtain ⟨rfl, rfl⟩ := Prod.mk.inj heq
  have hfind := hgroups.find?_of_mem hr hmem hs
  have hprecursor : c ∈ precursors s := List.mem_append_right _ (Option.mem_toList.2 hc)
  obtain ⟨x, hx⟩ := hr.exists_of_mem_precursors hfind hprecursor
  have hbase := hr.bases _ s c hfind hc
  obtain ⟨rfl, hencoded⟩ := hr.built.encoded hx
  have hown : s.isReference = true := (hr.built.encoded hfind).2.isReference_of_base hc
  have hnone : line.subtypes ≠ [] := List.ne_nil_of_mem hline
  exact ⟨⟨_, hgroups.tagLine_before hr hsplit hX hnone hown (Or.inl hs), List.mem_singleton.2 rfl⟩,
    ⟨_, hgroups.tagLine_before hr hsplit hX hnone (hencoded.isReference_iff.2 hbase.1)
      (hgroups.mem_or_before hr hsplit hs hx hprecursor), List.mem_singleton.2 rfl⟩⟩

/-! ### what is declared together -/

/-- A datatype is introduced by a command of the group that holds its sentence. -/
theorem mem_of_declaredIn (hX : X ∈ groups) (hline : line ∈ jointDeclarations X)
    (hs : r.find? t = some s) (h : s.DeclaredIn line) :
    s ∈ X := by
  obtain ⟨body, hbody, hown⟩ := h
  have hmem : body ∈ X.filterMap (·.datatypeBody?) := by
    rw [← (read_jointDeclarations (hgroups.isGroup hr hX)).1]
    exact List.mem_flatMap.2 ⟨line, hline, hbody⟩
  obtain ⟨x, hx, hbody⟩ := List.mem_filterMap.1 hmem
  have hname : x.name = s.name := Option.some.inj
    ((Sentence.head?_of_datatypeBody? hbody).symm.trans (Sentence.head?_of_datatypeBody? hown))
  rwa [← hr.eq_of_name (hgroups.find?_of_mem hr hX hx) hs hname]

theorem together_iff {t u : TypeRef} {s x : Sentence} (hs : r.find? t = some s)
    (hx : r.find? u = some x) (htu : t ≠ u) :
    (∃ line ∈ groups.flatMap jointDeclarations, s.DeclaredIn line ∧ x.DeclaredIn line) ↔
      r.Entwined t u := by
  obtain ⟨rfl, -⟩ := hr.built.encoded hs
  obtain ⟨rfl, -⟩ := hr.built.encoded hx
  constructor
  · rintro ⟨line, hline, hsline, hxline⟩
    obtain ⟨X, hX, hline⟩ := List.mem_flatMap.1 hline
    have hsX := hgroups.mem_of_declaredIn hr hX hline hs hsline
    have hxX := hgroups.mem_of_declaredIn hr hX hline hx hxline
    exact (hgroups.entwined X hX s hsX x (hr.built.mem_sorted.2 hx)).1 hxX
  · intro hentwined
    obtain ⟨X, hX, hsX⟩ := hgroups.exists_mem hr hs
    have hxX := (hgroups.entwined X hX s hsX x (hr.built.mem_sorted.2 hx)).2 hentwined
    have hne : s ≠ x := fun heq => htu (heq ▸ rfl)
    have hseveral := ne_singleton_of_mem hsX hxX hne
    have hdeclared : ∀ y ∈ X, y.hasDatatype = true →
        y.DeclaredIn (.declareDatatypes [] (X.filterMap (·.datatypeBody?))) := by
      intro y hy hdatatype
      obtain ⟨body, hbody, -⟩ := Sentence.datatypeBody?_of_hasDatatype hdatatype
      exact ⟨body, List.mem_filterMap.2 ⟨y, hy, hbody⟩, hbody⟩
    refine ⟨_, List.mem_flatMap.2 ⟨X, hX, ?_⟩,
      hdeclared s hsX (hgroups.hasDatatype_of_mem hr hX hsX hxX hne),
      hdeclared x hxX (hgroups.hasDatatype_of_mem hr hX hxX hsX (Ne.symm hne))⟩
    rw [jointDeclarations_of_ne hseveral]
    exact List.mem_cons_self

end Grouping

/-- **Declarations come in a usable order**: behind the preamble everything stored is introduced
once, after what it needs, and together with the types that it and that lead to it. -/
theorem declarations_inOrder (hr : r.Declarable) :
    ∃ lines, r.declarations = preamble ++ lines ∧ r.InOrder lines := by
  have hgroups := grouping_groups hr
  refine ⟨_, r.declarations_eq, ?_⟩
  exact
    { datatype := fun t s body hs hbody => hgroups.datatype_once hr hs hbody
      array := fun t s hs harray => hgroups.array_once hr hs harray
      tag := fun t s hs href => hgroups.tag_once hr hs href
      base := fun t s b hs hb => hgroups.base_once hr hs hb
      references := fun t s front line back hs hlines hline u hu =>
        hgroups.references_before hr hs hlines hline hu
      tagged := fun front line back a b hlines hline => hgroups.tags_before hr hlines hline
      together := fun t u s x hs hx htu => hgroups.together_iff hr hs hx htu }

/-! ## a sample -/

/-- The encodings of types of one program, stored one after the other. -/
def encodeAll (p : Program) : List TypeRef → TypeRepository
  | [] => .empty
  | t :: types =>
    match Sentence.encode none p t with
    | .ok s => (encodeAll p types).insert s
    | .error _ => encodeAll p types

theorem built_encodeAll (p : Program) (types : List TypeRef) : (encodeAll p types).Built := by
  induction types with
  | nil => exact .empty
  | cons t types ih =>
      unfold encodeAll
      split
      · next hs => exact .insert ih hs
      · exact ih

end TypeRepository

namespace Sample

def branch : TypeRef := .named "Sample" "Branch" []

def leaf : TypeRef := .named "Sample" "Leaf" []

/-- A branch has leaves, and a leaf is a branch that knows where it grows. -/
def tree : Program :=
  (Program.empty.addType
      { type := branch
        base := none
        fields := [⟨"leaves", .array leaf, false⟩, ⟨"height", .int32, false⟩]
        isValueType := false }).addType
    { type := leaf, base := some branch, fields := [⟨"origin", branch, false⟩],
      isValueType := false }

/-- A repository with branches and leaves. -/
def forest : TypeRepository := .encodeAll tree [.array leaf, leaf, .int32, .object, branch]

theorem inOrder_forest : forest.Declarable ∧ branch ≠ leaf ∧ forest.Entwined branch leaf ∧
    ∃ lines, forest.declarations = preamble ++ lines ∧ forest.InOrder lines := by
  have hstored : ∀ t s, forest.find? t = some s → (t, s) ∈ forest.sentences.entries :=
    fun t s => Table.mem_entries_of_find?
  have hclosed : ∀ entry ∈ forest.sentences.entries, ∀ d ∈ entry.2.dependencies,
      forest.contains d = true := by decide +kernel
  have hsymbols : ∀ entry ∈ forest.sentences.entries, ∀ other ∈ forest.sentences.entries,
      entry.1.symbol = other.1.symbol → entry.1 = other.1 := by decide +kernel
  have hbases : ∀ entry ∈ forest.sentences.entries, ∀ b ∈ entry.2.base.toList,
      b = .object ∨ b = branch := by decide +kernel
  have hforest : forest.Declarable :=
    { built := TypeRepository.built_encodeAll _ _
      closed := fun t s hs => hclosed _ (hstored t s hs)
      symbols := fun t u ht hu => by
        obtain ⟨s, hs⟩ := Option.isSome_iff_exists.1 ht
        obtain ⟨x, hx⟩ := Option.isSome_iff_exists.1 hu
        exact hsymbols _ (hstored t s hs) _ (hstored u x hx)
      bases := fun t s b hs hb => by
        obtain rfl | rfl := hbases _ (hstored t s hs) b (Option.mem_toList.2 hb)
        · simp [TypeRef.HasDatatype, TypeRef.IsReference]
        · simp [TypeRef.HasDatatype, TypeRef.IsReference, branch] }
  have hbranch : (forest.find? branch).any (leaf ∈ TypeRepository.precursors ·) = true := by
    decide +kernel
  have hleaf : (forest.find? leaf).any (branch ∈ TypeRepository.precursors ·) = true := by
    decide +kernel
  refine ⟨hforest, by decide +kernel, ⟨.single ?_, .single ?_⟩,
    TypeRepository.declarations_inOrder hforest⟩
  · obtain ⟨s, hs, hmem⟩ := (Option.any_eq_true _ _).1 hbranch
    exact ⟨s, hs, of_decide_eq_true hmem⟩
  · obtain ⟨s, hs, hmem⟩ := (Option.any_eq_true _ _).1 hleaf
    exact ⟨s, hs, of_decide_eq_true hmem⟩

end Sample

end Pathwise
