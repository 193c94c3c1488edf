import Mathlib.Data.List.TakeWhile
import Pathwise.Proofs.Success
import Pathwise.TypeRef.Parser

/-!
# Pathwise.Proofs.TypeText

Reading back the text of a type. What the parser returns is `Spelled`: its paths
hold no blanks and no angle brackets, a path that stands alone does not end like
an array, and a path between angle brackets holds no comma. The text of such a
type is read back, except that a name without namespace and arguments is taken
for the builtin type that is called so. `TypeRef.plain` says what is read.

The parser does return names of builtin types, since `.Int32` has a path of its
own. So a type that was read from a text is read back from its own text exactly
if there is no such name in it (`TypeRef.parse_text_eq_ok_iff`).

The commas between arguments are found by counting brackets. `IsPart` marks a text
without a comma to cut at, `Passes` one after which the count is what it was.
-/

namespace Pathwise

/-! ## names of builtin types -/

namespace Builtin

/-- Builtins are found by name. -/
theorem eq_name_of_ofName? {text : String} {b : Builtin} (h : ofName? text = some b) :
    text = b.name := by
  have hname : b.name = text := by simpa using List.find?_some h
  exact hname.symm

/-- Names of builtin types are of letters and digits. -/
theorem not_mem_name (b : Builtin) {c : Char} (hc : c.isAlphanum = false) : c ∉ b.name.toList := by
  have hall : b.name.toList.all Char.isAlphanum = true := by cases b <;> decide
  intro hmem
  have hchar := List.all_eq_true.1 hall c hmem
  rw [hc] at hchar
  cases hchar

end Builtin

/-! ## cuts -/

namespace Text

variable {c : Char} {cs : List Char}

/-- Without blanks nothing is trimmed. -/
theorem trim_of_forall (h : ∀ c ∈ cs, isBlank c = false) : trim cs = cs := by
  have hkeep : ∀ {ds : List Char}, (∀ c ∈ ds, isBlank c = false) → ds.dropWhile isBlank = ds := by
    intro ds hds
    cases ds with
    | nil => rfl
    | cons d ds => exact List.dropWhile_cons_of_neg (by simp [hds d List.mem_cons_self])
  rw [trim, hkeep h, hkeep (by simpa using h), List.reverse_reverse]

theorem trim_isPrefix (cs : List Char) : trim cs <+: cs.dropWhile isBlank := by
  rw [trim, ← List.reverse_suffix, List.reverse_reverse]
  exact List.dropWhile_suffix isBlank

/-- What dropping an ending leaves. -/
theorem dropEnd?_eq_some {ending cs front : List Char} :
    dropEnd? ending cs = some front ↔ cs = front ++ ending := by
  unfold dropEnd?
  split
  · next hend =>
      obtain ⟨a, rfl⟩ := List.isSuffixOf_iff_suffix.1 hend
      simp
  · next hend =>
      refine ⟨nofun, fun h => absurd ?_ hend⟩
      exact List.isSuffixOf_iff_suffix.2 ⟨front, h.symm⟩

theorem dropEnd?_eq_none {ending cs : List Char} :
    dropEnd? ending cs = none ↔ ¬ ending <:+ cs := by
  rw [Option.eq_none_iff_forall_ne_some]
  refine ⟨fun h hend => ?_, fun h front heq => h ⟨front, (dropEnd?_eq_some.1 heq).symm⟩⟩
  obtain ⟨front, hfront⟩ := hend
  exact h front (dropEnd?_eq_some.2 hfront.symm)

theorem cutFirst?_eq_none (h : c ∉ cs) : cutFirst? c cs = none := by
  induction cs with
  | nil => rfl
  | cons d ds ih =>
      rw [List.mem_cons, not_or] at h
      simp [cutFirst?, Ne.symm h.1, ih h.2]

/-- Cutting at the first occurrence. -/
theorem cutFirst?_append {a : List Char} (h : c ∉ a) (b : List Char) :
    cutFirst? c (a ++ c :: b) = some (a, b) := by
  induction a with
  | nil => simp [cutFirst?]
  | cons d a ih =>
      rw [List.mem_cons, not_or] at h
      simp [cutFirst?, Ne.symm h.1, ih h.2]

/-- Either there is no `c`, or what stands before the first one holds no other. -/
theorem cutFirst?_cases (c : Char) (cs : List Char) :
    (c ∉ cs ∧ cutFirst? c cs = none) ∨
      ∃ a b, cutFirst? c cs = some (a, b) ∧ cs = a ++ c :: b ∧ c ∉ a := by
  by_cases hc : c ∈ cs
  · obtain ⟨a, b, rfl, ha⟩ := List.eq_append_cons_of_mem hc
    exact .inr ⟨a, b, cutFirst?_append ha b, rfl, ha⟩
  · exact .inl ⟨hc, cutFirst?_eq_none hc⟩

theorem cutLast?_eq_none (h : c ∉ cs) : cutLast? c cs = none := by
  induction cs with
  | nil => rfl
  | cons d ds ih =>
      rw [List.mem_cons, not_or] at h
      simp [cutLast?, ih h.2, Ne.symm h.1]

/-- Cutting at the last occurrence. -/
theorem cutLast?_append {b : List Char} (h : c ∉ b) (a : List Char) :
    cutLast? c (a ++ c :: b) = some (a, b) := by
  induction a with
  | nil => simp [cutLast?, cutLast?_eq_none h]
  | cons d a ih => simp [cutLast?, ih]

/-- Either there is no `c`, or what follows the last one holds no other. -/
theorem cutLast?_cases (c : Char) (cs : List Char) :
    (c ∉ cs ∧ cutLast? c cs = none) ∨
      ∃ a b, cutLast? c cs = some (a, b) ∧ cs = a ++ c :: b ∧ c ∉ b := by
  by_cases hc : c ∈ cs
  · obtain ⟨b, a, hrev, hb⟩ := List.eq_append_cons_of_mem (List.mem_reverse.2 hc)
    have hcs : cs = a.reverse ++ c :: b.reverse := by
      rw [← List.reverse_reverse cs, hrev]
      simp
    have hlast : c ∉ b.reverse := by simpa using hb
    exact .inr ⟨a.reverse, b.reverse, hcs ▸ cutLast?_append hlast a.reverse, hcs, hlast⟩
  · exact .inl ⟨hc, cutLast?_eq_none hc⟩

end Text

namespace TypeRef

open Text

variable {cs : List Char} {nested : Bool} {depth : Nat} {s n : String} {t : TypeRef} {fuel : Nat}
  {c : Char}

/-! ## arguments -/

/-- The number of open brackets behind a character. -/
def nextDepth (depth : Nat) (c : Char) : Nat :=
  if c = '<' then depth + 1 else if c = '>' then depth - 1 else depth

theorem splitArguments_ne_nil (depth : Nat) (cs : List Char) : splitArguments depth cs ≠ [] := by
  cases cs with
  | nil => simp [splitArguments]
  | cons c cs =>
      unfold splitArguments
      split
      · simp
      · dsimp only
        split <;> simp

/-- A character that is no cut belongs to the first part. -/
theorem splitArguments_cons (h : ¬ (c = ',' ∧ depth = 0)) (cs : List Char) :
    splitArguments depth (c :: cs) =
      (splitArguments (nextDepth depth c) cs).modifyHead (c :: ·) := by
  rw [splitArguments, if_neg h, nextDepth]
  dsimp only
  split
  · next hparts => exact absurd hparts (splitArguments_ne_nil _ cs)
  · next hparts =>
      rw [hparts]
      rfl

/-- No comma of the text is one to cut at. -/
def IsPart (depth : Nat) (cs : List Char) : Prop := splitArguments depth cs = [cs]

theorem isPart_nil (depth : Nat) : IsPart depth [] := rfl

theorem isPart_cons :
    IsPart depth (c :: cs) ↔ ¬ (c = ',' ∧ depth = 0) ∧ IsPart (nextDepth depth c) cs := by
  by_cases hc : c = ',' ∧ depth = 0
  · simp [IsPart, splitArguments, hc]
  · rw [IsPart, splitArguments_cons hc, IsPart]
    simp only [hc, not_false_eq_true, true_and]
    constructor
    · intro h
      cases hparts : splitArguments (nextDepth depth c) cs with
      | nil => exact absurd hparts (splitArguments_ne_nil _ cs)
      | cons part parts => simpa [hparts] using h
    · intro h
      rw [h]
      rfl

/-- What `splitArguments` cuts out holds no further cut. -/
theorem isPart_of_splitArguments {cs part : List Char} {parts : List (List Char)}
    (h : splitArguments depth cs = part :: parts) :
    IsPart depth part ∧ ∀ p ∈ parts, IsPart 0 p := by
  induction cs generalizing depth part parts with
  | nil =>
      obtain ⟨rfl, rfl⟩ := List.cons.inj h
      exact ⟨rfl, by simp⟩
  | cons c cs ih =>
      by_cases hc : c = ',' ∧ depth = 0
      · rw [splitArguments, if_pos hc] at h
        obtain ⟨rfl, rfl⟩ := List.cons.inj h
        refine ⟨rfl, fun p hp => ?_⟩
        obtain ⟨first, others, hrest⟩ := List.exists_cons_of_ne_nil (splitArguments_ne_nil 0 cs)
        obtain ⟨hfirst, hothers⟩ := ih hrest
        rw [hrest, List.mem_cons] at hp
        obtain rfl | hp := hp
        · exact hfirst
        · exact hothers p hp
      · rw [splitArguments_cons hc] at h
        obtain ⟨first, others, hrest⟩ :=
          List.exists_cons_of_ne_nil (splitArguments_ne_nil (nextDepth depth c) cs)
        obtain ⟨hfirst, hothers⟩ := ih hrest
        rw [hrest] at h
        obtain ⟨rfl, rfl⟩ := List.cons.inj h
        exact ⟨isPart_cons.2 ⟨hc, hfirst⟩, hothers⟩

/-- Splitting gives parts. -/
theorem isPart_of_mem_splitArguments {cs part : List Char} (h : part ∈ splitArguments 0 cs) :
    IsPart 0 part := by
  obtain ⟨first, others, hcs⟩ := List.exists_cons_of_ne_nil (splitArguments_ne_nil 0 cs)
  obtain ⟨hfirst, hothers⟩ := isPart_of_splitArguments hcs
  rw [hcs, List.mem_cons] at h
  obtain rfl | h := h
  · exact hfirst
  · exact hothers part h

theorem IsPart.of_append {a b : List Char} (h : IsPart depth (a ++ b)) :
    IsPart depth a := by
  induction a generalizing depth with
  | nil => exact isPart_nil depth
  | cons c a ih =>
      obtain ⟨hc, h⟩ := isPart_cons.1 h
      exact isPart_cons.2 ⟨hc, ih h⟩

theorem IsPart.trim (h : IsPart 0 cs) : IsPart 0 (trim cs) := by
  have hdrop : IsPart 0 (cs.dropWhile isBlank) := by
    induction cs with
    | nil => exact h
    | cons c cs ih =>
        by_cases hc : isBlank c = true
        · rw [List.dropWhile_cons_of_pos hc]
          have hdepth : nextDepth 0 c = 0 := by
            unfold nextDepth
            split
            · next heq =>
                subst heq
                cases hc
            · split <;> rfl
          exact ih (hdepth ▸ (isPart_cons.1 h).2)
        · rwa [List.dropWhile_cons_of_neg hc]
  obtain ⟨rest, hrest⟩ := trim_isPrefix cs
  rw [← hrest] at hdrop
  exact hdrop.of_append

/-- Outside all brackets every comma is a cut. -/
theorem IsPart.comma_not_mem (h : IsPart 0 cs) (hopen : '<' ∉ cs) : ',' ∉ cs := by
  induction cs with
  | nil => simp
  | cons c cs ih =>
      rw [List.mem_cons, not_or] at hopen ⊢
      obtain ⟨hc, hcs⟩ := isPart_cons.1 h
      have hdepth : nextDepth 0 c = 0 := by simp [nextDepth, Ne.symm hopen.1]
      exact ⟨fun heq => hc ⟨heq.symm, rfl⟩, ih (hdepth ▸ hcs) hopen.2⟩

/-- With `depth` brackets open, a text is passed over: it belongs to the first part, and as many
brackets are open behind it. -/
def Passes (depth : Nat) (cs : List Char) : Prop :=
  ∀ rest, splitArguments depth (cs ++ rest) =
    (splitArguments depth rest).modifyHead (cs ++ ·)

/-- Passing is for texts in a row. -/
theorem Passes.append {a b : List Char} (ha : Passes depth a) (hb : Passes depth b) :
    Passes depth (a ++ b) := by
  intro rest
  rw [List.append_assoc, ha, hb, List.modifyHead_modifyHead]
  congr 1
  funext x
  simp

theorem passes_nil (depth : Nat) : Passes depth [] := by
  intro rest
  cases hrest : splitArguments depth rest with
  | nil => exact absurd hrest (splitArguments_ne_nil depth rest)
  | cons part parts => simp [hrest]

theorem passes_singleton (hc : ¬ (c = ',' ∧ depth = 0)) (hdepth : nextDepth depth c = depth) :
    Passes depth [c] := by
  intro rest
  rw [List.singleton_append, splitArguments_cons hc, hdepth]
  rfl

theorem passes_of_forall (h : ∀ c ∈ cs, c ≠ '<' ∧ c ≠ '>' ∧ c ≠ ',') :
    Passes depth cs := by
  induction cs with
  | nil => exact passes_nil depth
  | cons c cs ih =>
      obtain ⟨⟨hopen, hclose, hcomma⟩, hcs⟩ := List.forall_mem_cons.1 h
      have hc : Passes depth [c] :=
        passes_singleton (fun h => hcomma h.1) (by simp [nextDepth, hopen, hclose])
      exact hc.append (ih hcs)

/-- What is passed over inside a bracket is passed over with its brackets. -/
theorem Passes.bracket (h : Passes (depth + 1) cs) :
    Passes depth ('<' :: (cs ++ ['>'])) := by
  intro rest
  have hopen : nextDepth depth '<' = depth + 1 := rfl
  have hclose : nextDepth (depth + 1) '>' = depth := rfl
  rw [List.cons_append, splitArguments_cons (by simp), hopen, List.append_assoc, h,
    List.singleton_append, splitArguments_cons (by simp), hclose]
  simp only [List.modifyHead_modifyHead]
  congr 1
  funext x
  simp

/-! ## what the parser returns -/

/-- A path that is cut into the namespace and name it is put together from; `nested` if it stands
between angle brackets. -/
structure IsPath (nested : Bool) (space name : String) : Prop where
  name_ne : name ≠ ""
  dot : '.' ∉ name.toList
  chars : ∀ c ∈ (path space name).toList, isBlank c = false ∧ c ≠ '<' ∧ c ≠ '>'
  comma : nested = true → ',' ∉ (path space name).toList

mutual

/-- A type as the parser returns it; `nested` if it was read between angle brackets. -/
def Spelled (nested : Bool) : TypeRef → Prop
  | .builtin _ => True
  | .array e => e.Spelled nested
  | .named s n as =>
      IsPath nested s n ∧ (as = [] → ¬ ['[', ']'] <:+ (path s n).toList) ∧ SpelledAll as

/-- Types that can be spelled as arguments. -/
def SpelledAll : List TypeRef → Prop
  | [] => True
  | a :: as => a.Spelled true ∧ SpelledAll as

end

theorem spelledAll_iff {as : List TypeRef} : SpelledAll as ↔ ∀ a ∈ as, a.Spelled true := by
  induction as with
  | nil => simp [SpelledAll]
  | cons a as ih => simp [SpelledAll, ih]

theorem toList_path (space name : String) : (path space name).toList =
    if space = "" then name.toList else space.toList ++ '.' :: name.toList := by
  unfold path
  split <;> simp

/-- Only a dot at the front of a path is not written again. -/
theorem ofPath_eq_ok {whole cs : List Char} {args : List TypeRef} (h : ofPath whole cs args = .ok t)
    (hopen : '<' ∉ cs) (hcomma : nested = true → ',' ∉ cs) :
    ∃ s n, t = .named s n args ∧ IsPath nested s n ∧ (path s n).toList <:+ cs := by
  unfold ofPath at h
  split at h
  · cases h
  next hcs =>
    simp only [List.any_eq_true, Bool.or_eq_true, beq_iff_eq, not_or, not_exists, not_and] at hcs
    obtain ⟨hne, hchars⟩ := hcs
    -- all that is left to say of the two ways to cut is where the path ends up
    have isPath : ∀ {s n : String}, n ≠ "" → '.' ∉ n.toList → (path s n).toList <:+ cs →
        IsPath nested s n := by
      intro s n hn hdot hsuffix
      refine ⟨hn, hdot, fun c hc => ?_, fun hnested hc => hcomma hnested (hsuffix.subset hc)⟩
      have hmem := hsuffix.subset hc
      refine ⟨by simpa using (hchars c hmem).2, ?_, (hchars c hmem).1⟩
      rintro rfl
      exact hopen hmem
    obtain ⟨hdot, hcut⟩ | ⟨a, b, hcut, rfl, hdot⟩ := cutLast?_cases '.' cs
    · rw [hcut] at h
      obtain rfl := Except.ok.inj h
      have hsuffix : (path "" (String.ofList cs)).toList <:+ cs := by simp [toList_path]
      refine ⟨"", String.ofList cs, rfl, isPath ?_ ?_ hsuffix, hsuffix⟩
      · simpa [← String.toList_inj] using hne
      · simpa using hdot
    · rw [hcut] at h
      cases b with
      | nil => cases h
      | cons c b =>
          obtain rfl := Except.ok.inj h
          have hsuffix : (path (String.ofList a) (String.ofList (c :: b))).toList <:+
              a ++ '.' :: c :: b := by
            rw [toList_path]
            split
            · exact ⟨a ++ ['.'], by simp⟩
            · simp
          refine ⟨_, _, rfl, isPath ?_ ?_ hsuffix, hsuffix⟩
          · simp [← String.toList_inj]
          · simpa using hdot

/-- **What is read is spelled.** Between angle brackets the text is one that was cut out. -/
theorem spelled_of_parseChars (h : parseChars fuel cs = .ok t)
    (hpart : nested = true → IsPart 0 cs) :
    t.Spelled nested := by
  induction fuel generalizing nested cs t with
  | zero =>
      rw [parseChars] at h
      cases h
  | succ fuel ih =>
      have hpart : nested = true → IsPart 0 (trim cs) := fun hn => (hpart hn).trim
      rw [parseChars] at h
      generalize trim cs = s at h hpart
      split at h
      · cases h
      split at h
      · next element hend =>
          rw [dropEnd?_eq_some] at hend
          simp only [bind_eq_ok, pure_eq_ok] at h
          obtain ⟨e, he, rfl⟩ := h
          have helement : e.Spelled nested := ih he fun hn => IsPart.of_append (hend ▸ hpart hn)
          exact helement
      next hend =>
      split at h
      · obtain rfl := Except.ok.inj h
        trivial
      obtain ⟨hopen, hcut⟩ | ⟨a, b, hcut, rfl, hopen⟩ := cutFirst?_cases '<' s
      · rw [hcut] at h
        obtain ⟨space, name, rfl, hpath, hsuffix⟩ :=
          ofPath_eq_ok h hopen fun hn => (hpart hn).comma_not_mem hopen
        refine ⟨hpath, fun _ harray => ?_, trivial⟩
        exact dropEnd?_eq_none.1 hend (harray.trans hsuffix)
      · rw [hcut] at h
        dsimp only at h
        split at h
        · cases h
        simp only [bind_eq_ok] at h
        obtain ⟨args, hargs, h⟩ := h
        obtain ⟨space, name, rfl, hpath, -⟩ :=
          ofPath_eq_ok h hopen fun hn => (hpart hn).of_append.comma_not_mem hopen
        have hspelled : SpelledAll args := by
          rw [spelledAll_iff]
          intro arg harg
          obtain ⟨part, hmem, hread⟩ := exists_of_mem_of_mapM_eq_ok hargs harg
          exact ih hread fun _ => isPart_of_mem_splitArguments hmem
        refine ⟨hpath, ?_, hspelled⟩
        -- there is always a part, so there is an argument
        rintro rfl
        exact absurd (List.eq_nil_of_length_eq_zero (length_of_mapM_eq_ok hargs).symm)
          (splitArguments_ne_nil 0 _)

/-! ## what is read back -/

mutual

/-- A type as it is read back from its text: a name that stands alone is that of a builtin type if
there is one. -/
def plain : TypeRef → TypeRef
  | .builtin b => .builtin b
  | .array e => .array e.plain
  | .named s n [] => (Builtin.ofName? (path s n)).elim (.named s n []) .builtin
  | .named s n (a :: as) => .named s n (a.plain :: plainAll as)

/-- The plain forms of the types of a list. -/
def plainAll : List TypeRef → List TypeRef
  | [] => []
  | a :: as => a.plain :: plainAll as

end

theorem IsPath.ne_nil (h : IsPath nested s n) :
    (path s n).toList ≠ [] := by
  have hname : n.toList ≠ [] := fun hnil => h.name_ne (String.toList_inj.1 hnil)
  rw [toList_path]
  split <;> simp [hname]

theorem IsPath.open_not_mem (h : IsPath nested s n) :
    '<' ∉ (path s n).toList := fun hmem => (h.chars _ hmem).2.1 rfl

/-- Paths are read back. -/
theorem ofPath_path (h : IsPath nested s n) (whole : List Char) (args : List TypeRef) :
    ofPath whole (path s n).toList args = .ok (.named s n args) := by
  have hname : n.toList ≠ [] := fun hnil => h.name_ne (String.toList_inj.1 hnil)
  have hgood : ¬ ((path s n).toList = [] ∨
      (path s n).toList.any (fun c => c == '>' || isBlank c) = true) := by
    refine not_or.2 ⟨h.ne_nil, ?_⟩
    simp only [List.any_eq_true, Bool.or_eq_true, beq_iff_eq, not_exists, not_and, not_or]
    intro c hc
    simp [h.chars c hc]
  rw [ofPath, if_neg hgood, toList_path]
  obtain ⟨c, cs, hcs⟩ := List.exists_cons_of_ne_nil hname
  by_cases hs : s = ""
  · rw [if_pos hs, cutLast?_eq_none h.dot, hs]
    simp
  · rw [if_neg hs, cutLast?_append h.dot, hcs]
    simp [← hcs]

/-- Ranks are read. -/
theorem parseChars_array {e : TypeRef} (hblank : ∀ c ∈ cs, isBlank c = false)
    (h : parseChars fuel cs = .ok e) :
    parseChars (fuel + 1) (cs ++ ['[', ']']) = .ok (.array e) := by
  have htrim : trim (cs ++ ['[', ']']) = cs ++ ['[', ']'] := by
    refine trim_of_forall (List.forall_mem_append.2 ⟨hblank, ?_⟩)
    simp only [List.forall_mem_cons, List.not_mem_nil, false_imp_iff, implies_true, and_true]
    decide
  rw [parseChars, htrim, if_neg (by simp), dropEnd?_eq_some.2 rfl]
  simp [h]

/-- Builtins are read. -/
theorem parseChars_builtin (fuel : Nat) (b : Builtin) :
    parseChars (fuel + 1) b.name.toList = .ok (.builtin b) := by
  have htrim : trim b.name.toList = b.name.toList := by cases b <;> decide
  have hend : dropEnd? ['[', ']'] b.name.toList = none := by cases b <;> decide
  rw [parseChars, htrim, if_neg (by cases b <;> decide), hend, String.ofList_toList,
    Builtin.ofName?_name]

/-- Names are read. -/
theorem parseChars_path (h : IsPath nested s n) (hend : ¬ ['[', ']'] <:+ (path s n).toList)
    (fuel : Nat) :
    parseChars (fuel + 1) (path s n).toList =
      .ok ((Builtin.ofName? (path s n)).elim (.named s n []) .builtin) := by
  rw [parseChars, trim_of_forall fun c hc => (h.chars c hc).1, if_neg h.ne_nil,
    dropEnd?_eq_none.2 hend, String.ofList_toList]
  cases hname : Builtin.ofName? (path s n) with
  | some b => rfl
  | none => simp only [cutFirst?_eq_none h.open_not_mem, ofPath_path h, Option.elim]

/-- Arguments are read. -/
theorem parseChars_generic (h : IsPath nested s n) {inner : List Char} {args : List TypeRef}
    (hblank : ∀ c ∈ inner, isBlank c = false)
    (hargs : (splitArguments 0 inner).mapM (parseChars fuel) = .ok args) :
    parseChars (fuel + 1) ((path s n).toList ++ '<' :: (inner ++ ['>'])) =
      .ok (.named s n args) := by
  have htrim : trim ((path s n).toList ++ '<' :: (inner ++ ['>'])) =
      (path s n).toList ++ '<' :: (inner ++ ['>']) := by
    refine trim_of_forall (List.forall_mem_append.2 ⟨fun c hc => (h.chars c hc).1, ?_⟩)
    exact List.forall_mem_cons.2 ⟨rfl, List.forall_mem_append.2 ⟨hblank, by simp; rfl⟩⟩
  have hend : dropEnd? ['[', ']'] ((path s n).toList ++ '<' :: (inner ++ ['>'])) = none := by
    rw [dropEnd?_eq_none]
    rintro ⟨front, hfront⟩
    have heq : front ++ ['['] ++ [']'] = (path s n).toList ++ '<' :: inner ++ ['>'] := by
      simpa using hfront
    exact absurd (List.append_inj' heq rfl).2 (by decide)
  have hname : Builtin.ofName? (String.ofList ((path s n).toList ++ '<' :: (inner ++ ['>']))) =
      none := by
    cases hb : Builtin.ofName? (String.ofList ((path s n).toList ++ '<' :: (inner ++ ['>']))) with
    | none => rfl
    | some b =>
        have hmem : '<' ∈ b.name.toList := by simp [← Builtin.eq_name_of_ofName? hb]
        exact absurd hmem (b.not_mem_name rfl)
  rw [parseChars, htrim, if_neg (by simp), hend, hname, cutFirst?_append h.open_not_mem]
  simp only [dropEnd?_eq_some.2 (rfl : inner ++ ['>'] = inner ++ ['>']), hargs]
  exact ofPath_path h _ args

/-! ## texts of spelled types -/

theorem toList_text_array (e : TypeRef) :
    (array e).text.toList = e.text.toList ++ ['[', ']'] := by simp [text]

theorem toList_text_generic (s n : String) (a : TypeRef) (as : List TypeRef) :
    (named s n (a :: as)).text.toList =
      (path s n).toList ++ '<' :: ((a.text.toList ++ (textMore as).toList) ++ ['>']) := by
  simp [text]

theorem toList_textMore_cons (a : TypeRef) (as : List TypeRef) :
    (textMore (a :: as)).toList = ',' :: (a.text.toList ++ (textMore as).toList) := by
  simp [textMore]

mutual

theorem isBlank_of_mem_text {nested : Bool} : {t : TypeRef} → t.Spelled nested →
    ∀ c ∈ t.text.toList, isBlank c = false
  | .builtin b, _ => by cases b <;> simp [text, Builtin.name] <;> decide
  | .array e, h => by
      rw [toList_text_array]
      refine List.forall_mem_append.2 ⟨isBlank_of_mem_text (t := e) h, ?_⟩
      simp only [List.forall_mem_cons, List.not_mem_nil, false_imp_iff, implies_true, and_true]
      decide
  | .named s n [], h => by
      rw [text]
      exact fun c hc => (h.1.chars c hc).1
  | .named s n (a :: as), h => by
      rw [toList_text_generic]
      refine List.forall_mem_append.2 ⟨fun c hc => (h.1.chars c hc).1, ?_⟩
      refine List.forall_mem_cons.2 ⟨rfl, List.forall_mem_append.2 ⟨?_, by simp; rfl⟩⟩
      exact List.forall_mem_append.2 ⟨isBlank_of_mem_text h.2.2.1, isBlank_of_mem_textMore h.2.2.2⟩

theorem isBlank_of_mem_textMore : {as : List TypeRef} → SpelledAll as →
    ∀ c ∈ (textMore as).toList, isBlank c = false
  | [], _ => by simp [textMore]
  | a :: as, h => by
      rw [toList_textMore_cons]
      refine List.forall_mem_cons.2 ⟨rfl, ?_⟩
      exact List.forall_mem_append.2 ⟨isBlank_of_mem_text h.1, isBlank_of_mem_textMore h.2⟩

end

theorem IsPath.passes (h : IsPath true s n) (depth : Nat) :
    Passes depth (path s n).toList := by
  refine passes_of_forall fun c hc => ⟨(h.chars c hc).2.1, (h.chars c hc).2.2, ?_⟩
  rintro rfl
  exact h.comma rfl hc

mutual

/-- The brackets in the text of an argument are closed in it, and its commas are between them. -/
theorem passes_text (depth : Nat) : {t : TypeRef} → t.Spelled true → Passes depth t.text.toList
  | .builtin b, _ => passes_of_forall (by cases b <;> simp [text, Builtin.name])
  | .array e, h => by
      rw [toList_text_array]
      exact (passes_text depth (t := e) h).append (passes_of_forall (by simp))
  | .named s n [], h => by
      rw [text]
      exact h.1.passes depth
  | .named s n (a :: as), h => by
      rw [toList_text_generic]
      have hinner := (passes_text (depth + 1) h.2.2.1).append (passes_textMore depth h.2.2.2)
      exact (h.1.passes depth).append hinner.bracket

theorem passes_textMore (depth : Nat) : {as : List TypeRef} → SpelledAll as →
    Passes (depth + 1) (textMore as).toList
  | [], _ => by
      rw [textMore]
      exact passes_nil (depth + 1)
  | a :: as, h => by
      rw [toList_textMore_cons]
      have hcomma : Passes (depth + 1) [','] := passes_singleton (by simp) rfl
      exact hcomma.append ((passes_text (depth + 1) h.1).append (passes_textMore depth h.2))

end

/-- The arguments of a type are found again in its text. -/
theorem splitArguments_text {a : TypeRef} {as : List TypeRef} (h : SpelledAll (a :: as)) :
    splitArguments 0 (a.text.toList ++ (textMore as).toList) =
      (a :: as).map (·.text.toList) := by
  induction as generalizing a with
  | nil =>
      rw [passes_text 0 h.1]
      simp [textMore, splitArguments]
  | cons b bs ih =>
      rw [passes_text 0 h.1, toList_textMore_cons, splitArguments, if_pos (by simp), ih h.2]
      simp

mutual

/-- **What is spelled is read back**, with builtin types for their names. The fuel is more than the
text is long. -/
theorem parseChars_text (fuel : Nat) {nested : Bool} : {t : TypeRef} → t.Spelled nested →
    t.text.toList.length < fuel → parseChars fuel t.text.toList = .ok t.plain
  | .builtin b, _, hfuel => by
      obtain ⟨fuel, rfl⟩ : ∃ k, fuel = k + 1 := ⟨fuel - 1, by omega⟩
      exact parseChars_builtin fuel b
  | .array e, h, hfuel => by
      obtain ⟨fuel, rfl⟩ : ∃ k, fuel = k + 1 := ⟨fuel - 1, by omega⟩
      rw [toList_text_array] at hfuel ⊢
      rw [List.length_append, List.length_cons] at hfuel
      have he := parseChars_text fuel (t := e) h (by omega)
      exact parseChars_array (isBlank_of_mem_text (t := e) h) he
  | .named s n [], h, hfuel => by
      obtain ⟨fuel, rfl⟩ : ∃ k, fuel = k + 1 := ⟨fuel - 1, by omega⟩
      rw [text]
      exact parseChars_path h.1 (h.2.1 rfl) fuel
  | .named s n (a :: as), h, hfuel => by
      obtain ⟨fuel, rfl⟩ : ∃ k, fuel = k + 1 := ⟨fuel - 1, by omega⟩
      rw [toList_text_generic] at hfuel ⊢
      have hlen : a.text.toList.length + (textMore as).toList.length + 1 ≤ fuel := by
        simp only [List.length_append, List.length_cons, List.length_nil] at hfuel
        omega
      refine parseChars_generic h.1 (List.forall_mem_append.2
        ⟨isBlank_of_mem_text h.2.2.1, isBlank_of_mem_textMore h.2.2.2⟩) ?_
      rw [splitArguments_text h.2.2, List.map_cons, List.mapM_cons,
        parseChars_text fuel h.2.2.1 (by omega), mapM_parseChars_text fuel h.2.2.2 (by omega)]
      rfl

theorem mapM_parseChars_text (fuel : Nat) : {as : List TypeRef} → SpelledAll as →
    (textMore as).toList.length ≤ fuel →
    (as.map (·.text.toList)).mapM (parseChars fuel) = .ok (plainAll as)
  | [], _, _ => rfl
  | a :: as, h, hfuel => by
      rw [toList_textMore_cons, List.length_cons, List.length_append] at hfuel
      rw [List.map_cons, List.mapM_cons, parseChars_text fuel h.1 (by omega),
        mapM_parseChars_text fuel h.2 (by omega)]
      rfl

end

/-! ## types that keep their text -/

mutual

/-- The type itself, and those of its elements and arguments. -/
def nodes : TypeRef → List TypeRef
  | .builtin b => [.builtin b]
  | .array e => .array e :: e.nodes
  | .named s n as => .named s n as :: nodesAll as

/-- The nodes of the types of a list. -/
def nodesAll : List TypeRef → List TypeRef
  | [] => []
  | a :: as => a.nodes ++ nodesAll as

end

theorem plain_named_nil :
    (named s n []).plain = .named s n [] ↔ ∀ b : Builtin, named s n [] ≠ .named "" b.name [] := by
  rw [plain]
  cases hname : Builtin.ofName? (path s n) with
  | none =>
      simp only [Option.elim, ne_eq, true_iff]
      intro b heq
      obtain ⟨rfl, rfl⟩ : s = "" ∧ n = b.name := by simpa using heq
      rw [path, if_pos rfl, Builtin.ofName?_name] at hname
      cases hname
  | some b =>
      simp only [Option.elim, ne_eq, reduceCtorEq, false_iff, not_forall, Decidable.not_not]
      have hpath : path s n = b.name := Builtin.eq_name_of_ofName? hname
      have hs : s = "" := by
        by_cases hs : s = ""
        · exact hs
        · have hdot : '.' ∈ b.name.toList := by simp [← hpath, toList_path, hs]
          exact absurd hdot (b.not_mem_name rfl)
      rw [path, if_pos hs] at hpath
      exact ⟨b, by rw [hs, hpath]⟩

mutual

/-- Only names of builtins are changed. -/
theorem plain_eq_self_iff : (t : TypeRef) →
    (t.plain = t ↔ ∀ u ∈ t.nodes, ∀ b : Builtin, u ≠ .named "" b.name [])
  | .builtin b => by simp [plain, nodes]
  | .array e => by simp [plain, nodes, plain_eq_self_iff e]
  | .named s n [] => by
      rw [plain_named_nil, nodes, nodesAll, List.forall_mem_singleton]
  | .named s n (a :: as) => by
      simp [plain, nodes, nodesAll, or_imp, forall_and, plain_eq_self_iff a,
        plainAll_eq_self_iff as]

theorem plainAll_eq_self_iff : (as : List TypeRef) →
    (plainAll as = as ↔ ∀ u ∈ nodesAll as, ∀ b : Builtin, u ≠ .named "" b.name [])
  | [] => by simp [plainAll, nodesAll]
  | a :: as => by
      simp [plainAll, nodesAll, or_imp, forall_and, plain_eq_self_iff a, plainAll_eq_self_iff as]

end

/-- A type that was read from a text is read back from its own, with builtin types for their
names. -/
theorem parse_text_of_parse {source : String} (h : parse source = .ok t) :
    parse t.text = .ok t.plain := by
  have hspelled : t.Spelled false := spelled_of_parseChars h nofun
  exact parseChars_text _ hspelled (by rw [String.length_toList]; omega)

/-- **Round trip of types**: the text of a type that was read from a text is again the text of a
type, and of the same one exactly if nowhere in it a name without namespace and arguments is that
of a builtin type. -/
theorem parse_text_eq_ok_iff {source : String} {t : TypeRef} (h : parse source = .ok t) :
    (∃ t', parse t.text = .ok t') ∧
      (parse t.text = .ok t ↔ ∀ u ∈ t.nodes, ∀ b : Builtin, u ≠ .named "" b.name []) := by
  refine ⟨⟨t.plain, parse_text_of_parse h⟩, ?_⟩
  rw [parse_text_of_parse h, Except.ok.injEq, plain_eq_self_iff]

/-- A leading dot is lost. That changes the type if the name behind it is that of a builtin type,
here below two others, and does not if it is another. -/
theorem parse_text_leading_dot :
    (parse "Demo.Box< .Int32 [], Demo.Leaf>" =
        .ok (.named "Demo" "Box" [.array (.named "" "Int32" []), .named "Demo" "Leaf" []]) ∧
      parse (named "Demo" "Box" [.array (.named "" "Int32" []), .named "Demo" "Leaf" []]).text ≠
        .ok (.named "Demo" "Box" [.array (.named "" "Int32" []), .named "Demo" "Leaf" []])) ∧
    parse ".Pair<.Box[],Int32>[]" =
        .ok (.array (.named "" "Pair" [.array (.named "" "Box" []), .int32])) ∧
      parse (array (.named "" "Pair" [.array (.named "" "Box" []), .int32])).text =
        .ok (.array (.named "" "Pair" [.array (.named "" "Box" []), .int32])) := by
  have hshadow : parse "Demo.Box< .Int32 [], Demo.Leaf>" =
      .ok (.named "Demo" "Box" [.array (.named "" "Int32" []), .named "Demo" "Leaf" []]) := by
    decide +kernel
  have hother : parse ".Pair<.Box[],Int32>[]" =
      .ok (.array (.named "" "Pair" [.array (.named "" "Box" []), .int32])) := by decide +kernel
  refine ⟨⟨hshadow, fun h => ?_⟩, hother, ?_⟩
  · exact (parse_text_eq_ok_iff hshadow).2.1 h (.named "" "Int32" [])
      (by simp [nodes, nodesAll]) .int32 rfl
  · exact (parse_text_eq_ok_iff hother).2.2 ((plain_eq_self_iff _).1 (by decide +kernel))

end TypeRef

end Pathwise
