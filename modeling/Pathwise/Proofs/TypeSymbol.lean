import Mathlib.Data.List.Basic
import Pathwise.Proofs.Declarations.Lines
import Pathwise.Proofs.Resolution.Independence
import Pathwise.Proofs.Symbol

/-!
# Pathwise.Proofs.TypeSymbol

When types share a symbol. A symbol is put together from parts, with `_` between
them: names, `Of` behind the name of a generic type, `Array` behind the elements
of an array. Where the arguments of a generic type end is not written. Types have
the same symbol exactly if they have the same parts (`TypeRef.symbol_eq_iff`);
`Demo.Box<Int32>[]` and `Demo.Box<Int32[]>` do (`Sample.Boxes.shared_symbol`).

The parts of a type can be read back if the name of a generic type says how many
arguments follow, no array is one of a generic type, and no name is taken for a
builtin type (`TypeRef.Legible`). They can then even be told from what follows
them, so the names that the sentence of such a type introduces are not those of
another one (`Engine.disjoint_names`).
-/

namespace Pathwise

/-! ## parts of types -/

/-- ASCII letters and digits, and the dot of namespaces. -/
def Text.isPlain (c : Char) : Bool := c.isAlphanum || c == '.'

namespace TypeRef

mutual

/-- The parts of a type, with builtin types spelled by `spell`. Below a name they are spelled as in
the program. -/
def parts (spell : Builtin → String) : TypeRef → List String
  | .builtin b => [spell b]
  | .array e => e.parts spell ++ ["Array"]
  | .named s n [] => [path s n]
  | .named s n (a :: as) => path s n :: "Of" :: (a.parts Builtin.name ++ partsAll as)

/-- The parts of the types of a list. -/
def partsAll : List TypeRef → List String
  | [] => []
  | a :: as => a.parts Builtin.name ++ partsAll as

end

/-- The parts of a type's symbol. -/
def symbolParts (t : TypeRef) : List String := t.parts fun b => (TypeRef.builtin b).symbol

/-- A name of ASCII letters and digits. -/
def IsName (name : String) : Prop := name.toList.all Char.isAlphanum = true

/-- A namespace of such names, with dots between them. -/
def IsSpace (space : String) : Prop := space.toList.all Text.isPlain = true

mutual

/-- All names in a type are of letters and digits. -/
def WellNamed : TypeRef → Prop
  | .builtin _ => True
  | .array e => e.WellNamed
  | .named s n as => IsSpace s ∧ IsName n ∧ WellNamedAll as

/-- Lists of well-named types. -/
def WellNamedAll : List TypeRef → Prop
  | [] => True
  | a :: as => a.WellNamed ∧ WellNamedAll as

end

/-- Induction on types, arguments included. -/
@[elab_as_elim]
theorem induction {P : TypeRef → Prop} (builtin : ∀ b, P (.builtin b))
    (array : ∀ e, P e → P (.array e)) (named : ∀ s n as, (∀ a ∈ as, P a) → P (.named s n as))
    (t : TypeRef) : P t := by
  refine TypeRef.rec (motive_2 := fun as => ∀ a ∈ as, P a) builtin array named ?_ ?_ t
  · simp
  · exact fun a as ha has => List.forall_mem_cons.2 ⟨ha, has⟩

theorem wellNamedAll_iff {as : List TypeRef} : WellNamedAll as ↔ ∀ a ∈ as, a.WellNamed := by
  induction as with
  | nil => simp [WellNamedAll]
  | cons a as ih => simp [WellNamedAll, ih]

end TypeRef

/-! ## symbols from parts -/

namespace Text

/-- Words, each behind `_`. -/
def underscored : List String → List Char
  | [] => []
  | w :: ws => '_' :: (w.toList ++ underscored ws)

theorem underscored_append (ws ws' : List String) :
    underscored (ws ++ ws') = underscored ws ++ underscored ws' := by
  induction ws with
  | nil => rfl
  | cons w ws ih => simp [underscored, ih]

/-- Words without `_` can be told from the text. -/
theorem underscored_inj {ws ws' : List String} (h : ∀ w ∈ ws, '_' ∉ w.toList)
    (h' : ∀ w ∈ ws', '_' ∉ w.toList) (heq : underscored ws = underscored ws') : ws = ws' := by
  have htake : ∀ (w : String) (ws : List String), '_' ∉ w.toList →
      (w.toList ++ underscored ws).takeWhile (· ≠ '_') = w.toList := by
    intro w ws hw
    have hall : ∀ c ∈ w.toList, decide (c ≠ '_') = true := by
      intro c hc
      rw [decide_eq_true_iff]
      rintro rfl
      exact hw hc
    rw [List.takeWhile_append_of_pos hall]
    cases ws <;> simp [underscored]
  induction ws generalizing ws' with
  | nil =>
      cases ws' with
      | nil => rfl
      | cons w' ws' => simp [underscored] at heq
  | cons w ws ih =>
      cases ws' with
      | nil => simp [underscored] at heq
      | cons w' ws' =>
          obtain ⟨hw, hws⟩ := List.forall_mem_cons.1 h
          obtain ⟨hw', hws'⟩ := List.forall_mem_cons.1 h'
          have htail : w.toList ++ underscored ws = w'.toList ++ underscored ws' :=
            (List.cons.inj heq).2
          have hword : w.toList = w'.toList := by rw [← htake w ws hw, htail, htake w' ws' hw']
          rw [hword, List.append_cancel_left_eq] at htail
          rw [String.toList_inj.1 hword, ih hws hws' htail]

theorem replacePair_cons_of_ne {a b c : Char} (h : c ≠ a) (out rest : List Char) :
    replacePair a b out (c :: rest) = c :: replacePair a b out rest := by
  cases rest with
  | nil => rfl
  | cons d rest => simp [replacePair, h]

theorem replacePair_append_of_notMem {a b : Char} {cs : List Char} (h : a ∉ cs)
    (out rest : List Char) : replacePair a b out (cs ++ rest) = cs ++ replacePair a b out rest := by
  induction cs with
  | nil => rfl
  | cons c cs ih =>
      rw [List.mem_cons, not_or] at h
      rw [List.cons_append, replacePair_cons_of_ne (Ne.symm h.1), ih h.2, List.cons_append]

/-- What one character of a name becomes, where no pair begins with it. -/
theorem symbolChars_cons {c : Char} (hbracket : c ≠ '[') (hcolon : ':' ∉ spellBracket c)
    (rest : List Char) :
    symbolChars (c :: rest) = (spellBracket c).filter isSymbolChar ++ symbolChars rest := by
  unfold symbolChars
  dsimp only
  rw [replacePair_cons_of_ne hbracket, List.flatMap_cons, replacePair_append_of_notMem hcolon,
    List.filter_append]

/-- Ranks are spelled out. -/
theorem symbolChars_array (rest : List Char) :
    symbolChars ('[' :: ']' :: rest) = underscored ["Array"] ++ symbolChars rest := by
  unfold symbolChars
  dsimp only
  rw [replacePair, if_pos ⟨rfl, rfl⟩, List.flatMap_append,
    replacePair_append_of_notMem (by decide), List.filter_append]
  rfl

theorem ne_of_isPlain {c d : Char} (h : isPlain c = true) (hd : isPlain d = false) : c ≠ d := by
  rintro rfl
  rw [h] at hd
  contradiction

theorem spellBracket_of_isPlain {c : Char} (h : isPlain c = true) : spellBracket c = [c] := by
  unfold spellBracket
  split
  · exact absurd rfl (ne_of_isPlain h (by decide))
  · exact absurd rfl (ne_of_isPlain h (by decide))
  · exact absurd rfl (ne_of_isPlain h (by decide))
  · rfl

theorem isSymbolChar_of_isPlain {c : Char} (h : isPlain c = true) : isSymbolChar c = true := by
  unfold isPlain at h
  unfold isSymbolChar
  rw [Bool.or_eq_true] at h
  obtain h | h := h
  · simp [isAlphanumeric_of_isAlphanum h]
  · simp [h]

/-- Brackets are spelled out. -/
theorem symbolChars_open (rest : List Char) :
    symbolChars ('<' :: rest) = underscored ["Of"] ++ '_' :: symbolChars rest := by
  rw [symbolChars_cons (by decide) (by decide)]
  rfl

theorem symbolChars_comma (rest : List Char) :
    symbolChars (',' :: rest) = '_' :: symbolChars rest := by
  rw [symbolChars_cons (by decide) (by decide)]
  rfl

theorem symbolChars_close (rest : List Char) : symbolChars ('>' :: rest) = symbolChars rest := by
  rw [symbolChars_cons (by decide) (by decide)]
  rfl

/-- Letters, digits and dots stay. -/
theorem symbolChars_append {cs : List Char} (h : cs.all isPlain = true) (rest : List Char) :
    symbolChars (cs ++ rest) = cs ++ symbolChars rest := by
  induction cs with
  | nil => rfl
  | cons c cs ih =>
      rw [List.all_cons, Bool.and_eq_true] at h
      have hcolon : ':' ∉ spellBracket c := by
        rw [spellBracket_of_isPlain h.1, List.mem_singleton]
        exact (ne_of_isPlain h.1 (by decide)).symm
      rw [List.cons_append, symbolChars_cons (ne_of_isPlain h.1 (by decide)) hcolon, ih h.2,
        spellBracket_of_isPlain h.1, List.filter_cons_of_pos (isSymbolChar_of_isPlain h.1)]
      rfl

end Text

namespace TypeRef

variable {t : TypeRef}

theorem isPlain_path {s n : String} (hs : IsSpace s) (hn : IsName n) :
    (path s n).toList.all Text.isPlain = true := by
  have hname : n.toList.all Text.isPlain = true := by
    rw [IsName, List.all_eq_true] at hn
    rw [List.all_eq_true]
    intro c hc
    simp [Text.isPlain, hn c hc]
  unfold path
  split
  · exact hname
  · rw [String.toList_append, String.toList_append, List.all_append, List.all_append, hname,
      show s.toList.all Text.isPlain = true from hs]
    rfl

mutual

/-- The text of a type becomes its parts. -/
theorem symbolChars_text : (t : TypeRef) → t.WellNamed → (rest : List Char) →
    '_' :: Text.symbolChars (t.text.toList ++ rest) =
      Text.underscored (t.parts Builtin.name) ++ Text.symbolChars rest
  | .builtin b, _, rest => by
      have hplain : b.name.toList.all Text.isPlain = true := by cases b <;> decide
      rw [text, Text.symbolChars_append hplain, parts]
      simp [Text.underscored]
  | .array e, h, rest => by
      rw [text, String.toList_append, List.append_assoc, symbolChars_text e h, parts,
        Text.underscored_append, List.append_assoc]
      exact congrArg _ (Text.symbolChars_array rest)
  | .named s n [], h, rest => by
      rw [text, Text.symbolChars_append (isPlain_path h.1 h.2.1), parts]
      simp [Text.underscored]
  | .named s n (a :: as), h, rest => by
      have harguments : '_' :: Text.symbolChars
          (a.text.toList ++ ((textMore as).toList ++ '>' :: rest)) =
          Text.underscored (a.parts Builtin.name ++ partsAll as) ++ Text.symbolChars rest := by
        rw [symbolChars_text a h.2.2.1, symbolChars_textMore as h.2.2.2, Text.symbolChars_close,
          Text.underscored_append, List.append_assoc]
      have htext : (TypeRef.named s n (a :: as)).text.toList ++ rest =
          (path s n).toList ++ '<' :: (a.text.toList ++ ((textMore as).toList ++ '>' :: rest)) := by
        simp [text]
      rw [htext, Text.symbolChars_append (isPlain_path h.1 h.2.1), Text.symbolChars_open,
        harguments,
        parts]
      simp [Text.underscored]

theorem symbolChars_textMore : (as : List TypeRef) → WellNamedAll as → (rest : List Char) →
    Text.symbolChars ((textMore as).toList ++ rest) =
      Text.underscored (partsAll as) ++ Text.symbolChars rest
  | [], _, rest => by simp [textMore, partsAll, Text.underscored]
  | a :: as, h, rest => by
      have htext : (textMore (a :: as)).toList ++ rest =
          ',' :: (a.text.toList ++ ((textMore as).toList ++ rest)) := by
        simp [textMore]
      rw [htext, Text.symbolChars_comma, symbolChars_text a h.1, symbolChars_textMore as h.2,
        partsAll, Text.underscored_append, List.append_assoc]

end

theorem parts_named (spell : Builtin → String) (s n : String) (as : List TypeRef) :
    (TypeRef.named s n as).parts spell = (TypeRef.named s n as).parts Builtin.name := by
  cases as <;> rfl

/-- The symbol of a type is put together from its parts. -/
theorem underscored_symbolParts (t : TypeRef) (h : t.WellNamed) :
    Text.underscored t.symbolParts = '_' :: t.symbol.toList := by
  unfold symbolParts
  induction t using TypeRef.induction with
  | builtin b => cases b <;> rfl
  | array e ih =>
      rw [parts, Text.underscored_append, ih h, symbol, String.toList_append]
      rfl
  | named s n as _ =>
      have htext := symbolChars_text (.named s n as) h []
      rw [parts_named, symbol, Text.symbol, String.toList_ofList]
      simpa [Text.symbolChars, Text.replacePair] using htext.symm

theorem underscore_notMem_parts (t : TypeRef) (h : t.WellNamed) {spell : Builtin → String}
    (hspell : ∀ b, '_' ∉ (spell b).toList) : ∀ w ∈ t.parts spell, '_' ∉ w.toList := by
  have hname : ∀ b : Builtin, '_' ∉ b.name.toList := by intro b; cases b <;> decide
  induction t using TypeRef.induction generalizing spell with
  | builtin b => simpa [parts] using hspell b
  | array e ih =>
      rw [parts, List.forall_mem_append, List.forall_mem_singleton]
      exact ⟨ih h hspell, by decide⟩
  | named s n as ih =>
      have hpath : '_' ∉ (path s n).toList := fun hmem =>
        absurd (List.all_eq_true.1 (isPlain_path h.1 h.2.1) _ hmem) (by decide)
      have hall : ∀ w ∈ partsAll as, '_' ∉ w.toList := by
        have has := wellNamedAll_iff.1 h.2.2
        clear h
        induction as with
        | nil => simp [partsAll]
        | cons a as ih' =>
            rw [List.forall_mem_cons] at ih has
            rw [partsAll, List.forall_mem_append]
            exact ⟨ih.1 has.1 hname, ih' ih.2 has.2⟩
      cases as with
      | nil => simpa [parts] using hpath
      | cons a as =>
          rw [parts, List.forall_mem_cons, List.forall_mem_cons]
          exact ⟨hpath, by decide, hall⟩

theorem underscore_notMem_symbolParts (t : TypeRef) (h : t.WellNamed) :
    ∀ w ∈ t.symbolParts, '_' ∉ w.toList :=
  underscore_notMem_parts t h fun b => by cases b <;> decide

/-- **Symbols are parts**: well-named types have the same symbol exactly if they have the same
parts. -/
theorem symbol_eq_iff {t u : TypeRef} (ht : t.WellNamed) (hu : u.WellNamed) :
    t.symbol = u.symbol ↔ t.symbolParts = u.symbolParts := by
  constructor
  · intro h
    refine Text.underscored_inj (underscore_notMem_symbolParts t ht)
      (underscore_notMem_symbolParts u hu) ?_
    rw [underscored_symbolParts t ht, underscored_symbolParts u hu, h]
  · intro h
    have hchars := underscored_symbolParts t ht
    rw [h, underscored_symbolParts u hu] at hchars
    exact String.toList_inj.1 (List.cons.inj hchars).2.symm

-- where arguments end does not show, and a name can be that of a builtin sort
example : (TypeRef.named "" "A" [.named "" "B" [.int32], .bool]).symbol =
    (TypeRef.named "" "A" [.named "" "B" [.int32, .bool]]).symbol := by decide

example : (TypeRef.named "" "Int" []).symbol = TypeRef.int32.symbol := by decide

/-! ## reading parts back -/

/-- Parts that stand for a builtin type, or for no type. -/
def reserved : List String :=
  "Of" :: "Array" :: Builtin.all.flatMap fun b => [b.name, (TypeRef.builtin b).symbol]

/-- The generic arguments of a type, below its array brackets. -/
def arguments : TypeRef → List TypeRef
  | .builtin _ => []
  | .array e => e.arguments
  | .named _ _ as => as

mutual

/-- A type whose parts say where its arguments end: their number is that of the name, arrays are not
of generic types, and a name without a namespace is not reserved. -/
def Delimited (arity : String → String → Nat) : TypeRef → Prop
  | .builtin _ => True
  | .array e => e.arguments = [] ∧ e.Delimited arity
  | .named s n as => (s = "" → n ∉ reserved) ∧ as.length = arity s n ∧ DelimitedAll arity as

/-- Lists of delimited types. -/
def DelimitedAll (arity : String → String → Nat) : List TypeRef → Prop
  | [] => True
  | a :: as => a.Delimited arity ∧ DelimitedAll arity as

end

/-- The first part of a type. -/
def firstPart (spell : Builtin → String) : TypeRef → String
  | .builtin b => spell b
  | .array e => e.firstPart spell
  | .named s n _ => path s n

/-- The number of array brackets around a type. -/
def depth : TypeRef → Nat
  | .array e => e.depth + 1
  | _ => 0

/-- Ways to spell the builtin types. -/
structure IsSpelling (spell : Builtin → String) : Prop where
  injective : ∀ b b', spell b = spell b' → b = b'
  reserved : ∀ b, spell b ∈ reserved
  ne_array : ∀ b, spell b ≠ "Array"

theorem isSpelling_name : IsSpelling Builtin.name where
  injective b b' := by cases b <;> cases b' <;> decide
  reserved b := by cases b <;> decide
  ne_array b := by cases b <;> decide

theorem isSpelling_symbol : IsSpelling fun b => (TypeRef.builtin b).symbol where
  injective b b' := by cases b <;> cases b' <;> decide
  reserved b := by cases b <;> decide
  ne_array b := by cases b <;> decide

variable {arity : String → String → Nat} {spell : Builtin → String}

/-- A delimited type is its first part, then either its array brackets or its arguments. -/
theorem parts_eq (h : t.Delimited arity) : t.parts spell = t.firstPart spell ::
    if t.arguments = [] then List.replicate t.depth "Array" else "Of" :: partsAll t.arguments := by
  induction t using TypeRef.induction with
  | builtin b => rfl
  | array e ih =>
      rw [parts, ih h.2, arguments, if_pos h.1, if_pos h.1, depth, List.replicate_succ']
      rfl
  | named s n as _ => cases as <;> rfl

theorem dot_notMem {n : String} (hn : IsName n) : '.' ∉ n.toList := fun hmem =>
  absurd (List.all_eq_true.1 hn _ hmem) (by decide)

theorem dot_mem_path {s : String} (hs : s ≠ "") (n : String) : '.' ∈ (path s n).toList := by
  simp [path, hs]

/-- Paths tell names and spaces apart. -/
theorem path_inj {s s' n n' : String} (hn : IsName n) (hn' : IsName n')
    (h : path s n = path s' n') : s = s' ∧ n = n' := by
  by_cases hs : s = ""
  · by_cases hs' : s' = ""
    · simp only [path, hs, hs', if_true] at h
      exact ⟨hs.trans hs'.symm, h⟩
    · have hdot := dot_mem_path hs' n'
      rw [← h, path, if_pos hs] at hdot
      exact absurd hdot (dot_notMem hn)
  · by_cases hs' : s' = ""
    · have hdot := dot_mem_path hs n
      rw [h, path, if_pos hs'] at hdot
      exact absurd hdot (dot_notMem hn')
    · -- the name begins behind the last dot
      rw [path, path, if_neg hs, if_neg hs'] at h
      have hchars : n.toList.reverse ++ '.' :: s.toList.reverse =
          n'.toList.reverse ++ '.' :: s'.toList.reverse := by
        simpa using congrArg (fun x => x.toList.reverse) h
      obtain ⟨hname, hspace⟩ := append_mark_inj (by simpa using dot_notMem hn)
        (by simpa using dot_notMem hn') hchars
      exact ⟨String.toList_inj.1 (List.reverse_injective hspace),
        String.toList_inj.1 (List.reverse_injective hname)⟩

/-- A name is not reserved. -/
theorem path_notMem_reserved {s n : String} (h : s = "" → n ∉ reserved) : path s n ∉ reserved := by
  by_cases hs : s = ""
  · rw [path, if_pos hs]
    exact h hs
  · intro hmem
    have hreserved : ∀ w ∈ reserved, '.' ∉ w.toList := by decide
    exact hreserved _ hmem (dot_mem_path hs n)

/-- A type whose parts can be read back. -/
structure Legible (arity : String → String → Nat) (t : TypeRef) : Prop where
  wellNamed : t.WellNamed
  delimited : t.Delimited arity

theorem Legible.of_array {e : TypeRef} (h : (TypeRef.array e).Legible arity) : e.Legible arity :=
  ⟨h.wellNamed, h.delimited.2⟩

theorem delimitedAll_iff {as : List TypeRef} :
    DelimitedAll arity as ↔ ∀ a ∈ as, a.Delimited arity := by
  induction as with
  | nil => simp [DelimitedAll]
  | cons a as ih => simp [DelimitedAll, ih]

theorem Legible.of_mem_arguments (h : t.Legible arity) :
    ∀ a ∈ t.arguments, a.Legible arity := by
  induction t using TypeRef.induction with
  | builtin b => simp [arguments]
  | array e ih => exact ih h.of_array
  | named s n as _ =>
      intro a ha
      exact ⟨wellNamedAll_iff.1 h.wellNamed.2.2 a ha, delimitedAll_iff.1 h.delimited.2.2 a ha⟩

/-- Only arrays begin as arrays. -/
theorem firstPart_ne_array (hspell : IsSpelling spell) (h : t.Legible arity) :
    t.firstPart spell ≠ "Array" := by
  induction t using TypeRef.induction with
  | builtin b => exact hspell.ne_array b
  | array e ih => exact ih h.of_array
  | named s n as _ =>
      intro heq
      refine path_notMem_reserved h.delimited.1 ?_
      rw [show path s n = "Array" from heq]
      decide

/-- The first part tells the type below the brackets, up to its arguments, and their number. -/
theorem length_arguments_of_firstPart (hspell : IsSpelling spell) {t u : TypeRef}
    (ht : t.Legible arity)
    (hu : u.Legible arity) (hword : t.firstPart spell = u.firstPart spell) :
    t.arguments.length = u.arguments.length ∧
      (t.depth = u.depth → t.arguments = u.arguments → t = u) := by
  induction t using TypeRef.induction generalizing u with
  | array e ih =>
      refine ⟨(ih ht.of_array hu hword).1, fun hdepth harguments => ?_⟩
      cases u with
      | array e' =>
          have hdepth' : e.depth = e'.depth := Nat.succ.inj hdepth
          rw [(ih ht.of_array hu.of_array hword).2 hdepth' harguments]
      | builtin b => simp [depth] at hdepth
      | named s n as => simp [depth] at hdepth
  | builtin b =>
      induction u using TypeRef.induction with
      | array e' ih =>
          refine ⟨(ih hu.of_array hword).1, fun hdepth _ => ?_⟩
          simp [depth] at hdepth
      | builtin b' =>
          rw [hspell.injective b b' hword]
          exact ⟨rfl, fun _ _ => rfl⟩
      | named s n as _ =>
          have hreserved := hspell.reserved b
          rw [show spell b = path s n from hword] at hreserved
          exact absurd hreserved (path_notMem_reserved hu.delimited.1)
  | named s n as _ =>
      induction u using TypeRef.induction with
      | array e' ih =>
          refine ⟨(ih hu.of_array hword).1, fun hdepth _ => ?_⟩
          simp [depth] at hdepth
      | builtin b =>
          have hreserved := hspell.reserved b
          rw [← show path s n = spell b from hword] at hreserved
          exact absurd hreserved (path_notMem_reserved ht.delimited.1)
      | named s' n' as' _ =>
          obtain ⟨rfl, rfl⟩ := path_inj ht.wellNamed.2.1 hu.wellNamed.2.1 hword
          refine ⟨ht.delimited.2.1.trans hu.delimited.2.1.symm, fun _ harguments => ?_⟩
          exact congrArg (TypeRef.named s n) harguments

/-- The parts of a type can be told from what follows, unless that goes on with brackets. -/
def ReadsBack (arity : String → String → Nat) (t : TypeRef) : Prop :=
  ∀ spell, IsSpelling spell → ∀ u : TypeRef, t.Legible arity → u.Legible arity → ∀ rest rest',
    rest.head? ≠ some "Array" → rest'.head? ≠ some "Array" →
    t.parts spell ++ rest = u.parts spell ++ rest' → t = u ∧ rest = rest'

theorem readsBack_partsAll {as bs : List TypeRef} (has : ∀ a ∈ as, a.ReadsBack arity)
    (hlength : as.length = bs.length) (ht : ∀ a ∈ as, a.Legible arity)
    (hu : ∀ b ∈ bs, b.Legible arity) {rest rest' : List String}
    (hrest : rest.head? ≠ some "Array") (hrest' : rest'.head? ≠ some "Array")
    (h : partsAll as ++ rest = partsAll bs ++ rest') : as = bs ∧ rest = rest' := by
  -- what follows an argument begins with the first part of the next one
  have hnext : ∀ (as : List TypeRef) (rest : List String), (∀ a ∈ as, a.Legible arity) →
      rest.head? ≠ some "Array" → (partsAll as ++ rest).head? ≠ some "Array" := by
    intro as rest has hrest
    cases as with
    | nil => exact hrest
    | cons a as =>
        have ha := has a List.mem_cons_self
        rw [partsAll, parts_eq ha.delimited]
        simpa using firstPart_ne_array isSpelling_name ha
  induction as generalizing bs with
  | nil =>
      obtain rfl : bs = [] := List.eq_nil_of_length_eq_zero hlength.symm
      exact ⟨rfl, h⟩
  | cons a as ih =>
      cases bs with
      | nil => contradiction
      | cons b bs =>
          rw [List.forall_mem_cons] at has ht hu
          rw [partsAll, partsAll, List.append_assoc, List.append_assoc] at h
          obtain ⟨rfl, htail⟩ := has.1 _ isSpelling_name b ht.1 hu.1 _ _
            (hnext as rest ht.2 hrest) (hnext bs rest' hu.2 hrest') h
          obtain ⟨rfl, rfl⟩ := ih has.2 (Nat.succ.inj hlength) ht.2 hu.2 htail
          exact ⟨rfl, rfl⟩

theorem replicate_append_inj {k k' : Nat} {rest rest' : List String}
    (hrest : rest.head? ≠ some "Array") (hrest' : rest'.head? ≠ some "Array")
    (h : List.replicate k "Array" ++ rest = List.replicate k' "Array" ++ rest') :
    k = k' ∧ rest = rest' := by
  induction k generalizing k' with
  | zero =>
      cases k' with
      | zero => exact ⟨rfl, h⟩
      | succ k' =>
          rw [show rest = _ from h] at hrest
          exact absurd rfl hrest
  | succ k ih =>
      cases k' with
      | zero =>
          rw [← show _ = rest' from h] at hrest'
          exact absurd rfl hrest'
      | succ k' =>
          obtain ⟨rfl, rfl⟩ := ih (List.cons.inj h).2
          exact ⟨rfl, rfl⟩

/-- Generic types are no arrays. -/
theorem depth_eq_zero (h : t.Delimited arity) (harguments : t.arguments ≠ []) :
    t.depth = 0 := by
  cases t with
  | array e => exact absurd h.1 harguments
  | _ => rfl

theorem readsBack_of_arguments (h : ∀ a ∈ t.arguments, a.ReadsBack arity) :
    t.ReadsBack arity := by
  intro spell hspell u ht hu rest rest' hrest hrest' heq
  rw [parts_eq ht.delimited, parts_eq hu.delimited] at heq
  obtain ⟨hword, htail⟩ := List.cons.inj heq
  obtain ⟨hlength, hequal⟩ := length_arguments_of_firstPart hspell ht hu hword
  by_cases hnil : t.arguments = []
  · have hnil' : u.arguments = [] := List.eq_nil_of_length_eq_zero (by rw [← hlength, hnil]; rfl)
    rw [if_pos hnil, if_pos hnil'] at htail
    obtain ⟨hdepth, hrests⟩ := replicate_append_inj hrest hrest' htail
    exact ⟨hequal hdepth (hnil.trans hnil'.symm), hrests⟩
  · have hnil' : u.arguments ≠ [] := by
      intro hnil'
      rw [hnil'] at hlength
      exact hnil (List.eq_nil_of_length_eq_zero hlength)
    rw [if_neg hnil, if_neg hnil'] at htail
    obtain ⟨harguments, hrests⟩ := readsBack_partsAll h hlength ht.of_mem_arguments
      hu.of_mem_arguments hrest hrest' (List.cons.inj htail).2
    have hdepth : t.depth = u.depth := by
      rw [depth_eq_zero ht.delimited hnil, depth_eq_zero hu.delimited hnil']
    exact ⟨hequal hdepth harguments, hrests⟩

/-- Parts can be read back. -/
theorem readsBack (arity : String → String → Nat) (t : TypeRef) : t.ReadsBack arity := by
  have hall : t.ReadsBack arity ∧ ∀ a ∈ t.arguments, a.ReadsBack arity := by
    induction t using TypeRef.induction with
    | builtin b => exact ⟨readsBack_of_arguments (by simp [arguments]), by simp [arguments]⟩
    | array e ih => exact ⟨readsBack_of_arguments ih.2, ih.2⟩
    | named s n as ih =>
        have has : ∀ a ∈ as, a.ReadsBack arity := fun a ha => (ih a ha).1
        exact ⟨readsBack_of_arguments has, has⟩
  exact hall.1

end TypeRef

/-! ## names of sentences -/

/-- Names of a datatype's constructors. -/
def Sexp.constructors : Sexp → List String
  | .list (_ :: cs) => cs.filterMap fun c => c.atom?.or c.head?
  | _ => []

namespace Sentence

/-- The names that the commands of a sentence introduce: its sort, its constructors and its tag. -/
def names (s : Sentence) : List String :=
  s.declarations.flatMap fun line =>
    line.sorts ++ line.datatypes.flatMap Sexp.constructors ++ line.declared

/-- Names that a sentence introduces. -/
theorem mem_of_mem_names {s : Sentence} (hs : s.Encoded) {x : String} (hx : x ∈ s.names) :
    x ∈ [s.name, s.name ++ "_null", s.name ++ "_ctor", s.name ++ "_tag"] := by
  have htag : ∀ line ∈ s.tagDeclarations, line.sorts = [] ∧ line.datatypes = [] ∧
      (x ∈ line.declared → x = s.name ++ "_tag") := by
    intro line hline
    unfold tagDeclarations at hline
    split at hline
    · obtain rfl | hbase := List.mem_cons.1 hline
      · exact ⟨rfl, rfl, fun h => List.mem_singleton.1 h⟩
      · obtain ⟨b, -, rfl⟩ := Option.map_eq_some_iff.1 (Option.mem_toList.1 hbase)
        exact ⟨rfl, rfl, fun h => by contradiction⟩
    · contradiction
  have hsort : ∀ line ∈ s.datatypeDeclaration?, line.declared = [] ∧
      (x ∈ line.sorts ++ line.datatypes.flatMap Sexp.constructors →
        x ∈ [s.name, s.name ++ "_null", s.name ++ "_ctor"]) := by
    intro line hline
    obtain ⟨-, -, -, hdeclaration⟩ | ⟨-, -, -, hdeclaration⟩ | ⟨body, -, -, hbody, hdeclaration⟩ :=
      hs.datatypeDeclaration?_cases
    · rw [hdeclaration] at hline
      contradiction
    · rw [hdeclaration] at hline
      obtain rfl := Option.some.inj hline
      refine ⟨rfl, fun h => ?_⟩
      rw [List.mem_singleton.1 h]
      exact List.mem_cons_self
    · rw [hdeclaration] at hline
      obtain rfl := Option.some.inj hline
      refine ⟨rfl, fun h => ?_⟩
      have hdatatype := hasDatatype_of_datatypeBody? hbody
      obtain rfl : Sexp.app s.name [(Constructor.null s.name).sexp,
          (Constructor.object s.name s.fieldAccessors).sexp] = body := by
        simpa [datatypeBody?, nullConstructor?, constructor?, hdatatype] using hbody
      exact h
  obtain ⟨line, hline, hx⟩ := List.mem_flatMap.1 hx
  obtain hline | hline := List.mem_append.1 hline
  · obtain ⟨hdeclared, hmem⟩ := hsort line (Option.mem_toList.1 hline)
    rw [hdeclared, List.append_nil] at hx
    have h := hmem hx
    simp only [List.mem_cons, List.not_mem_nil, or_false] at h ⊢
    tauto
  · obtain ⟨hsorts, hdatatypes, hdeclared⟩ := htag line hline
    rw [hsorts, hdatatypes] at hx
    rw [hdeclared hx]
    simp

/-- A name is that of the type, with one more part or none. -/
theorem parts_of_mem_names {s : Sentence} (hs : s.Encoded) (ht : s.type.WellNamed) {x : String}
    (hx : x ∈ s.names) : ∃ more ∈ [[], ["null"], ["ctor"], ["tag"]],
      Text.underscored (s.type.symbolParts ++ more) = '_' :: x.toList := by
  have hwords : ∀ more, Text.underscored (s.type.symbolParts ++ more) =
      '_' :: (s.name.toList ++ Text.underscored more) := by
    intro more
    rw [Text.underscored_append, TypeRef.underscored_symbolParts _ ht]
    rfl
  have hmem := mem_of_mem_names hs hx
  simp only [List.mem_cons, List.not_mem_nil, or_false] at hmem
  obtain rfl | rfl | rfl | rfl := hmem
  · exact ⟨[], by simp, by rw [hwords]; simp [Text.underscored]⟩
  · exact ⟨["null"], by simp, by rw [hwords]; simp [Text.underscored]⟩
  · exact ⟨["ctor"], by simp, by rw [hwords]; simp [Text.underscored]⟩
  · exact ⟨["tag"], by simp, by rw [hwords]; simp [Text.underscored]⟩

end Sentence

namespace Engine

/-- **Which types share names**: well-named types have the same symbol exactly if they have the same
parts. If they are delimited and different, they have different symbols, and the sentences that an
engine stores for them introduce different sorts, constructors and tags. -/
theorem disjoint_names {t u : TypeRef} (ht : t.WellNamed) (hu : u.WellNamed) :
    (t.symbol = u.symbol ↔ t.symbolParts = u.symbolParts) ∧
    ∀ arity, t.Delimited arity → u.Delimited arity → t ≠ u → t.symbol ≠ u.symbol ∧
      ∀ e : Engine, e.types.Built → ∀ s s', e.types.find? t = some s → e.types.find? u = some s' →
        s.names.Disjoint s'.names := by
  refine ⟨TypeRef.symbol_eq_iff ht hu, fun arity htd hud hne => ?_⟩
  have hread : ∀ more more' : List String, more.head? ≠ some "Array" →
      more'.head? ≠ some "Array" → t.symbolParts ++ more ≠ u.symbolParts ++ more' := by
    intro more more' hmore hmore' heq
    exact hne
      (TypeRef.readsBack arity t _ TypeRef.isSpelling_symbol u ⟨ht, htd⟩ ⟨hu, hud⟩ more more'
      hmore hmore' heq).1
  constructor
  · intro hsymbol
    rw [TypeRef.symbol_eq_iff ht hu] at hsymbol
    exact hread [] [] (by simp) (by simp) (by simpa using hsymbol)
  · intro e he s s' hs hs' x hx hx'
    obtain ⟨rfl, hencoded⟩ := he.encoded hs
    obtain ⟨rfl, hencoded'⟩ := he.encoded hs'
    obtain ⟨more, hmore, hwords⟩ := Sentence.parts_of_mem_names hencoded ht hx
    obtain ⟨more', hmore', hwords'⟩ := Sentence.parts_of_mem_names hencoded' hu hx'
    have hword : ∀ m ∈ [[], ["null"], ["ctor"], ["tag"]], m.head? ≠ some "Array" ∧
        ∀ w ∈ m, '_' ∉ w.toList := by decide
    refine hread more more' (hword more hmore).1 (hword more' hmore').1 ?_
    refine Text.underscored_inj ?_ ?_ (hwords.trans hwords'.symm)
    · exact List.forall_mem_append.2
        ⟨TypeRef.underscore_notMem_symbolParts _ ht, (hword more hmore).2⟩
    · exact List.forall_mem_append.2
        ⟨TypeRef.underscore_notMem_symbolParts _ hu, (hword more' hmore').2⟩

end Engine

/-! ## a sample -/

namespace Sample.Boxes

/-- A generic type with one argument. -/
def box (item : TypeRef) : TypeRef := .named "Demo" "Box" [item]

/-- A box with its item. -/
def boxDef (item : TypeRef) : TypeDef :=
  { type := box item, base := none, fields := [⟨"item", item, false⟩], isValueType := false }

/-- Takes an array of boxes and a box of an array. -/
def visit : MethodRef :=
  .static (.named "Demo" "Boxes" []) "Visit" [.array (box .int32), box (.array .int32)] .void

/-- The method only returns. -/
def visitGraph : MethodGraph :=
  { method := visit
    blocks := [{ index := 0, instructions := [⟨0, .ret, none, []⟩], successors := [] }] }

/-- The two boxes and the method. -/
def program : Program :=
  ((Program.empty.addType (boxDef .int32)).addType (boxDef (.array .int32))).addMethod visitGraph

/-- The engine that has resolved `visit`. -/
def engine : Engine := (Engine.new program {}).performAll [.method visit [] []]

theorem built_engine : engine.types.Built :=
  Engine.built_performAll program {} (by simp [Engine.Request.IsUnaided])

theorem wellNamed_box {item : TypeRef} (h : item.WellNamed) : (box item).WellNamed :=
  ⟨rfl, rfl, h, trivial⟩

/-- An array of boxes and a box of an array have the same symbol; their sentences introduce one sort
and one tag twice. -/
theorem shared_symbol : (TypeRef.array (box .int32)).WellNamed ∧ (box (.array .int32)).WellNamed ∧
    TypeRef.array (box .int32) ≠ box (.array .int32) ∧
    (TypeRef.array (box .int32)).symbol = (box (.array .int32)).symbol ∧
    engine.types.Built ∧ ∃ s s', engine.types.find? (.array (box .int32)) = some s ∧
      engine.types.find? (box (.array .int32)) = some s' ∧ ¬ s.names.Disjoint s'.names := by
  have hnames : (engine.types.find? (.array (box .int32))).map Sentence.names =
      some ["Demo.Box_Of_Int32_Array", "Demo.Box_Of_Int32_Array_tag"] := by decide +kernel
  have hnames' : (engine.types.find? (box (.array .int32))).map Sentence.names =
      some ["Demo.Box_Of_Int32_Array", "Demo.Box_Of_Int32_Array_null",
        "Demo.Box_Of_Int32_Array_ctor", "Demo.Box_Of_Int32_Array_tag"] := by decide +kernel
  obtain ⟨s, hs, hnames⟩ := Option.map_eq_some_iff.1 hnames
  obtain ⟨s', hs', hnames'⟩ := Option.map_eq_some_iff.1 hnames'
  refine ⟨wellNamed_box trivial, wellNamed_box trivial, by decide, by decide +kernel,
    built_engine, s, s', hs, hs', fun hdisjoint => ?_⟩
  rw [hnames, hnames'] at hdisjoint
  exact hdisjoint List.mem_cons_self List.mem_cons_self

theorem delimited_box {item : TypeRef} (h : item.Delimited fun _ _ => 1) :
    (box item).Delimited fun _ _ => 1 := ⟨by decide, rfl, h, trivial⟩

/-- The sentences of boxes with different items share no names. -/
theorem disjoint_boxes : (box .int32).WellNamed ∧ (box (.array .int32)).WellNamed ∧
    (box .int32).Delimited (fun _ _ => 1) ∧ (box (.array .int32)).Delimited (fun _ _ => 1) ∧
    (box .int32).symbol ≠ (box (.array .int32)).symbol ∧
    ∃ s s', engine.types.find? (box .int32) = some s ∧
      engine.types.find? (box (.array .int32)) = some s' ∧ s.names.Disjoint s'.names := by
  have hnamed : (box .int32).WellNamed := wellNamed_box trivial
  have hnamed' : (box (.array .int32)).WellNamed := wellNamed_box trivial
  have hint : (box .int32).Delimited fun _ _ => 1 := delimited_box trivial
  have harray : (box (.array .int32)).Delimited fun _ _ => 1 := delimited_box ⟨rfl, trivial⟩
  obtain ⟨-, hdelimited⟩ := Engine.disjoint_names hnamed hnamed'
  obtain ⟨hsymbol, hnames⟩ := hdelimited _ hint harray (by decide)
  obtain ⟨s, hs⟩ : ∃ s, engine.types.find? (box .int32) = some s :=
    Option.isSome_iff_exists.1 (by decide +kernel)
  obtain ⟨s', hs'⟩ : ∃ s, engine.types.find? (box (.array .int32)) = some s :=
    Option.isSome_iff_exists.1 (by decide +kernel)
  exact ⟨hnamed, hnamed', hint, harray, hsymbol, s, s', hs, hs',
    hnames engine built_engine s s' hs hs'⟩

end Sample.Boxes

end Pathwise
