import Mathlib.Data.List.TakeWhile
import Pathwise.Proofs.Success
import Pathwise.Sexp.Parser
import Pathwise.Text.Symbol

/-!
# Pathwise.Proofs.RoundTrip

Reading back what `Sexp.render` wrote. An expression is `Readable` if each of its
atoms is one: not empty, and without blanks, parentheses and quotes. String
literals can hold anything. `Sexp.parse` then returns the expression that was
written (`Sexp.parse_render`), and it returns no others (`Sexp.readable_of_parse`):
the readable expressions are the image of the reader.

A name without letters has the empty symbol, so the terms of a program can hold
empty atoms. Such an atom is a gap: the text shows two spaces where it stands and
the reader passes over it. `Clean` allows gaps and `squeeze` takes them out; what
is read back from a clean expression is the squeezed one (`Sexp.parse_render_clean`),
and the round trip of readable expressions is the case without gaps.

The reader goes on where the text of an expression ends, so the statement about
`read` allows for a rest. What follows an expression inside a list is a blank or
a closing parenthesis; either ends an atom and a string literal.
-/

namespace Pathwise.Sexp

open Text

variable {c : Char} {e : Sexp} {rest : List Char}

/-- Induction on terms, items included. -/
@[elab_as_elim]
theorem induction {P : Sexp → Prop} (atom : ∀ x, P (.atom x)) (quoted : ∀ text, P (.quoted text))
    (list : ∀ as, (∀ a ∈ as, P a) → P (.list as)) (a : Sexp) : P a := by
  refine Sexp.rec (motive_2 := fun as => ∀ a ∈ as, P a) atom quoted list ?_ ?_ a
  · simp
  · exact fun a as ha has => List.forall_mem_cons.2 ⟨ha, has⟩

/-- A text of characters that can stand in an atom. -/
def IsPlain (text : String) : Prop := ∀ c ∈ text.toList, isAtomChar c = true

/-- A text that is read as one atom. -/
def IsAtom (text : String) : Prop := text.toList ≠ [] ∧ ∀ c ∈ text.toList, isAtomChar c = true

instance (text : String) : Decidable (IsAtom text) :=
  decidable_of_iff (text.toList ≠ [] ∧ text.toList.all isAtomChar) (by simp [IsAtom])

mutual

/-- Every atom of an expression is read as one. -/
def Readable : Sexp → Prop
  | .atom t => IsAtom t
  | .quoted _ => True
  | .list items => ReadableAll items

/-- Lists of readable terms. -/
def ReadableAll : List Sexp → Prop
  | [] => True
  | e :: es => e.Readable ∧ ReadableAll es

end

theorem readableAll_iff {es : List Sexp} : ReadableAll es ↔ ∀ e ∈ es, e.Readable := by
  induction es with
  | nil => simp [ReadableAll]
  | cons e es ih => simp [ReadableAll, ih]

/-! ## gaps -/

/-- An atom that the text does not show. -/
abbrev gap : Sexp := .atom ""

mutual

/-- Every atom of an expression is one or a gap. -/
def Clean : Sexp → Prop
  | .atom t => IsPlain t
  | .quoted _ => True
  | .list items => CleanAll items

/-- Lists of clean terms. -/
def CleanAll : List Sexp → Prop
  | [] => True
  | e :: es => e.Clean ∧ CleanAll es

end

theorem cleanAll_iff {es : List Sexp} : CleanAll es ↔ ∀ e ∈ es, e.Clean := by
  induction es with
  | nil => simp [CleanAll]
  | cons e es ih => simp [CleanAll, ih]

mutual

/-- The expression without the gaps in its lists. -/
def squeeze : Sexp → Sexp
  | .atom t => .atom t
  | .quoted t => .quoted t
  | .list items => .list (squeezeAll items)

/-- Leave out the gaps of a list. -/
def squeezeAll : List Sexp → List Sexp
  | [] => []
  | e :: es => if e = gap then squeezeAll es else e.squeeze :: squeezeAll es

end

theorem isAtom_of_isPlain {t : String} (ht : IsPlain t) (hne : Sexp.atom t ≠ gap) : IsAtom t :=
  ⟨fun hnil => hne (congrArg _ (String.toList_inj.1 hnil)), ht⟩

theorem ne_gap_of_readable (he : e.Readable) : e ≠ gap := by
  rintro rfl
  exact he.1 rfl

mutual

theorem clean_of_readable : {e : Sexp} → e.Readable → e.Clean
  | .atom _, he => he.2
  | .quoted _, _ => trivial
  | .list _, he => cleanAll_of_readableAll he

theorem cleanAll_of_readableAll : {es : List Sexp} → ReadableAll es → CleanAll es
  | [], _ => trivial
  | _ :: _, hes => ⟨clean_of_readable hes.1, cleanAll_of_readableAll hes.2⟩

end

mutual

theorem squeeze_of_readable : {e : Sexp} → e.Readable → e.squeeze = e
  | .atom _, _ => rfl
  | .quoted _, _ => rfl
  | .list _, he => congrArg Sexp.list (squeezeAll_of_readableAll he)

theorem squeezeAll_of_readableAll : {es : List Sexp} → ReadableAll es → squeezeAll es = es
  | [], _ => rfl
  | _ :: _, hes => by
      rw [squeezeAll, if_neg (ne_gap_of_readable hes.1), squeeze_of_readable hes.1,
        squeezeAll_of_readableAll hes.2]

end

/-! ## what can follow an expression -/

/-- What can follow an expression: nothing, a space or a closing parenthesis. -/
def IsEnd : List Char → Prop
  | [] => True
  | c :: _ => c = ' ' ∨ c = ')'

theorem isEnd_renderMore (es : List Sexp) (rest : List Char) :
    IsEnd ((renderMore es).toList ++ ')' :: rest) := by
  cases es with
  | nil => simp [renderMore, IsEnd]
  | cons e es => simp [renderMore, IsEnd]

theorem takeWhile_isAtomChar {cs rest : List Char} (hcs : ∀ c ∈ cs, isAtomChar c = true)
    (hrest : IsEnd rest) : (cs ++ rest).takeWhile isAtomChar = cs ∧
      (cs ++ rest).dropWhile isAtomChar = rest := by
  have hstop : rest.takeWhile isAtomChar = [] ∧ rest.dropWhile isAtomChar = rest := by
    cases rest with
    | nil => simp
    | cons c rest =>
        obtain rfl | rfl := hrest
        · exact ⟨rfl, rfl⟩
        · exact ⟨rfl, rfl⟩
  rw [List.takeWhile_append_of_pos hcs, List.dropWhile_append_of_pos hcs, hstop.1, hstop.2]
  exact ⟨List.append_nil cs, rfl⟩

/-- Quotes are read back. -/
theorem readQuoted_quoteChars (cs : List Char) (hrest : IsEnd rest) :
    readQuoted (quoteChars cs ++ '"' :: rest) = some (cs, rest) := by
  induction cs with
  | nil =>
      cases rest with
      | nil => rfl
      | cons c rest =>
          obtain rfl | rfl := hrest
          · rfl
          · rfl
  | cons c cs ih =>
      by_cases hc : c = '"'
      · subst hc
        simp [quoteChars, readQuoted, ih]
      · have hnext : ∀ xs, readQuoted (c :: xs) =
            (readQuoted xs).map fun read => (c :: read.1, read.2) := by
          intro xs
          rw [readQuoted]
          · simp [hc]
          · simp [hc]
        simp [quoteChars, hc, hnext, ih]

/-! ## one expression -/

theorem skipBlanks_cons (hc : isBlank c = false) (cs : List Char) :
    skipBlanks (c :: cs) = c :: cs := by
  simp [skipBlanks, hc]

theorem skipBlanks_space (cs : List Char) : skipBlanks (' ' :: cs) = skipBlanks cs :=
  List.dropWhile_cons_of_pos (by decide)

theorem isBlank_eq_false_of_isAtomChar (hc : isAtomChar c = true) :
    isBlank c = false ∧ c ≠ '(' ∧ c ≠ ')' ∧ c ≠ '"' := by
  simpa [isAtomChar, and_assoc] using hc

/-- An expression begins with a character that is neither skipped nor ends a list. -/
theorem exists_render_eq_cons (he : e.Clean) (hne : e ≠ gap) :
    ∃ c cs, e.render.toList = c :: cs ∧ isBlank c = false ∧ c ≠ ')' := by
  cases e with
  | atom t =>
      obtain ⟨c, cs, ht⟩ := List.exists_cons_of_ne_nil (isAtom_of_isPlain he hne).1
      obtain ⟨hblank, -, hclose, -⟩ := isBlank_eq_false_of_isAtomChar (he c (by simp [ht]))
      exact ⟨c, cs, ht, hblank, hclose⟩
  | quoted t =>
      have htext : (quoted t).render.toList = '"' :: (quoteChars t.toList ++ ['"']) := by
        simp [render, quote]
      exact ⟨'"', _, htext, by decide, by decide⟩
  | list items =>
      cases items with
      | nil => exact ⟨'(', [')'], by simp [render], by decide, by decide⟩
      | cons e es =>
          have htext : (list (e :: es)).render.toList =
              '(' :: (e.render.toList ++ ((renderMore es).toList ++ [')'])) := by simp [render]
          exact ⟨'(', _, htext, by decide, by decide⟩

/-- Atoms are read back. -/
theorem read_atom {t : String} (ht : IsAtom t) (hrest : IsEnd rest) (fuel : Nat) :
    read (fuel + 1) (t.toList ++ rest) = .ok (.atom t, rest) := by
  obtain ⟨hne, hall⟩ := ht
  obtain ⟨hread, hleft⟩ := takeWhile_isAtomChar hall hrest
  obtain ⟨c, cs, hcs⟩ := List.exists_cons_of_ne_nil hne
  obtain ⟨hblank, hopen, hclose, hquote⟩ :=
    isBlank_eq_false_of_isAtomChar (hall c (by simp [hcs]))
  rw [hcs, List.cons_append] at hread hleft ⊢
  rw [read, skipBlanks_cons hblank]
  split
  · contradiction
  · next heq => exact absurd (List.cons.inj heq).1 hopen
  · next heq => exact absurd (List.cons.inj heq).1 hclose
  · next heq => exact absurd (List.cons.inj heq).1 hquote
  · next heq =>
      obtain ⟨rfl, rfl⟩ := List.cons.inj heq
      simp only [hread, hleft, ← hcs, String.ofList_toList]

/-- Strings are read back. -/
theorem read_quoted (t : String) (hrest : IsEnd rest) (fuel : Nat) :
    read (fuel + 1) ((quote t).toList ++ rest) = .ok (.quoted t, rest) := by
  have htext : (quote t).toList ++ rest = '"' :: (quoteChars t.toList ++ '"' :: rest) := by
    simp [quote]
  rw [htext, read, skipBlanks_cons (by decide)]
  simp only [readQuoted_quoteChars t.toList hrest, String.ofList_toList]

theorem readItems_close (rest : List Char) (fuel : Nat) :
    readItems (fuel + 1) (')' :: rest) = .ok ([], rest) := by
  rw [readItems, skipBlanks_cons (by decide)]
  rfl

theorem readItems_space (fuel : Nat) (cs : List Char) :
    readItems fuel (' ' :: cs) = readItems fuel cs := by
  cases fuel with
  | zero => rfl
  | succ fuel => rw [readItems, readItems, skipBlanks_space]

/-- Items are read one after the other. -/
theorem readItems_cons {e item : Sexp} (he : e.Clean) (hne : e ≠ gap) {items : List Sexp}
    {more rest : List Char} {fuel : Nat}
    (hfirst : read fuel (e.render.toList ++ more) = .ok (item, more))
    (hmore : readItems fuel more = .ok (items, rest)) :
    readItems (fuel + 1) (e.render.toList ++ more) = .ok (item :: items, rest) := by
  obtain ⟨c, cs, hhead, hblank, hclose⟩ := exists_render_eq_cons he hne
  rw [hhead, List.cons_append] at hfirst ⊢
  rw [readItems, skipBlanks_cons hblank]
  split
  · contradiction
  · next heq => exact absurd (List.cons.inj heq).1 hclose
  · rw [hfirst]
    change (readItems fuel more >>= fun r => pure (item :: r.1, r.2)) = _
    rw [hmore]
    rfl

/-- A list is read if its items are. That the first item has no space before it makes no
difference. -/
theorem read_list {items read : List Sexp} {rest : List Char} {fuel : Nat}
    (h : readItems fuel ((renderMore items).toList ++ ')' :: rest) = .ok (read, rest)) :
    Sexp.read (fuel + 1) ((list items).render.toList ++ rest) = .ok (.list read, rest) := by
  obtain ⟨cs, htext, hitems⟩ : ∃ cs, (list items).render.toList ++ rest = '(' :: cs ∧
      readItems fuel cs = .ok (read, rest) := by
    cases items with
    | nil => exact ⟨')' :: rest, by simp [render], h⟩
    | cons e es =>
        refine ⟨e.render.toList ++ ((renderMore es).toList ++ ')' :: rest), by simp [render], ?_⟩
        rw [← readItems_space]
        simpa [renderMore] using h
  rw [htext, Sexp.read, skipBlanks_cons (by decide)]
  simp only [hitems]
  rfl

theorem length_renderMore_le (items : List Sexp) :
    (renderMore items).toList.length + 1 ≤ (list items).render.toList.length := by
  cases items with
  | nil => simp [render, renderMore]
  | cons e es =>
      have hspace : " ".toList.length = 1 := rfl
      have hopen : "(".toList.length = 1 := rfl
      have hclose : ")".toList.length = 1 := rfl
      simp only [render, renderMore, String.toList_append, List.length_append]
      omega

mutual

/-- **What is written is read**: with fuel for two steps a character, `read` returns the expression
that was written, less its gaps, and what follows it. -/
theorem read_render (fuel : Nat) : {e : Sexp} → e.Clean → e ≠ gap → {rest : List Char} →
    IsEnd rest → 2 * e.render.toList.length ≤ fuel →
    read fuel (e.render.toList ++ rest) = .ok (e.squeeze, rest)
  | .atom t, ht, hne, rest, hrest, hfuel => by
      have hatom := isAtom_of_isPlain ht hne
      have hpos := List.length_pos_iff.2 hatom.1
      obtain ⟨fuel, rfl⟩ : ∃ k, fuel = k + 1 := ⟨fuel - 1, by rw [render] at hfuel; omega⟩
      exact read_atom hatom hrest fuel
  | .quoted t, _, _, rest, hrest, hfuel => by
      have hpos : 0 < (quote t).toList.length := by simp [quote]
      obtain ⟨fuel, rfl⟩ : ∃ k, fuel = k + 1 := ⟨fuel - 1, by rw [render] at hfuel; omega⟩
      exact read_quoted t hrest fuel
  | .list items, he, _, rest, _, hfuel => by
      have hlen := length_renderMore_le items
      obtain ⟨fuel, rfl⟩ : ∃ k, fuel = k + 1 := ⟨fuel - 1, by omega⟩
      exact read_list (readItems_renderMore fuel he rest (by omega))

/-- Items are read back. -/
theorem readItems_renderMore (fuel : Nat) : {es : List Sexp} → CleanAll es →
    (rest : List Char) → 2 * (renderMore es).toList.length + 1 ≤ fuel →
    readItems fuel ((renderMore es).toList ++ ')' :: rest) = .ok (squeezeAll es, rest)
  | [], _, rest, hfuel => by
      obtain ⟨fuel, rfl⟩ : ∃ k, fuel = k + 1 := ⟨fuel - 1, by omega⟩
      exact readItems_close rest fuel
  | e :: es, hes, rest, hfuel => by
      have htext : (renderMore (e :: es)).toList ++ ')' :: rest =
          ' ' :: (e.render.toList ++ ((renderMore es).toList ++ ')' :: rest)) := by
        simp [renderMore]
      have hlen : 2 * (1 + e.render.toList.length + (renderMore es).toList.length) + 1 ≤ fuel := by
        simp only [renderMore, String.toList_append, List.length_append] at hfuel
        have hspace : " ".toList.length = 1 := rfl
        omega
      rw [htext, readItems_space, squeezeAll]
      by_cases hgap : e = gap
      · rw [if_pos hgap, hgap]
        exact readItems_renderMore fuel hes.2 rest (by omega)
      · rw [if_neg hgap]
        obtain ⟨fuel, rfl⟩ : ∃ k, fuel = k + 1 := ⟨fuel - 1, by omega⟩
        have hfirst := read_render fuel hes.1 hgap (isEnd_renderMore es rest) (by omega)
        have hmore := readItems_renderMore fuel hes.2 rest (by omega)
        exact readItems_cons hes.1 hgap hfirst hmore

end

/-- What is read back from a clean expression is the expression without its gaps. -/
theorem parse_render_clean (he : e.Clean) (hne : e ≠ gap) :
    parse e.render = .ok e.squeeze := by
  have hfuel : 2 * e.render.toList.length ≤ 2 * e.render.length + 1 := by
    rw [String.length_toList]
    omega
  have hread : read (2 * e.render.length + 1) (e.render.toList ++ []) = .ok (e.squeeze, []) :=
    read_render _ he hne trivial hfuel
  rw [List.append_nil] at hread
  unfold parse
  rw [hread]
  rfl

/-- **Round trip**: a readable expression is read back from its text. -/
theorem parse_render (he : e.Readable) : parse e.render = .ok e := by
  rw [parse_render_clean (clean_of_readable he) (ne_gap_of_readable he), squeeze_of_readable he]

/-! ## what the reader returns -/

/-- The first character behind the blanks is not blank. -/
theorem isBlank_of_skipBlanks {cs rest : List Char} (h : skipBlanks cs = c :: rest) :
    isBlank c = false := by
  induction cs with
  | nil => cases h
  | cons d cs ih =>
      by_cases hd : isBlank d = true
      · rw [skipBlanks, List.dropWhile_cons_of_pos hd] at h
        exact ih h
      · rw [skipBlanks, List.dropWhile_cons_of_neg hd] at h
        obtain ⟨rfl, -⟩ := List.cons.inj h
        simpa using hd

/-- The run of atom characters that `read` takes is an atom. -/
theorem isAtom_takeWhile (hc : isAtomChar c = true) (cs : List Char) :
    IsAtom (String.ofList ((c :: cs).takeWhile isAtomChar)) := by
  rw [IsAtom, String.toList_ofList]
  refine ⟨?_, fun d hd => List.mem_takeWhile_imp hd⟩
  rw [List.takeWhile_cons_of_pos hc]
  exact List.cons_ne_nil _ _

mutual

/-- **What is read is readable**: a list by its items, the rest by its first character. -/
theorem readable_of_read : (fuel : Nat) → {cs rest : List Char} → {e : Sexp} →
    read fuel cs = .ok (e, rest) → e.Readable
  | 0, cs, rest, e, h => by
      rw [read] at h
      cases h
  | fuel + 1, cs, rest, e, h => by
      rw [read] at h
      split at h
      · cases h
      · obtain ⟨r, hitems, hr⟩ := bind_eq_ok.1 h
        cases hr
        exact readableAll_of_readItems fuel hitems
      · cases h
      · split at h
        · cases h
        · cases h
          trivial
      · next c more hopen hclose hquote hskip =>
          cases h
          refine isAtom_takeWhile ?_ more
          simp_all [isAtomChar, isBlank_of_skipBlanks hskip]

theorem readableAll_of_readItems : (fuel : Nat) → {cs rest : List Char} → {es : List Sexp} →
    readItems fuel cs = .ok (es, rest) → ReadableAll es
  | 0, cs, rest, es, h => by
      rw [readItems] at h
      cases h
  | fuel + 1, cs, rest, es, h => by
      rw [readItems] at h
      split at h
      · cases h
      · cases h
        trivial
      · obtain ⟨first, hfirst, h⟩ := bind_eq_ok.1 h
        obtain ⟨more, hmore, h⟩ := bind_eq_ok.1 h
        cases h
        exact ⟨readable_of_read fuel hfirst, readableAll_of_readItems fuel hmore⟩

end

/-- What is parsed is readable. -/
theorem readable_of_parse {text : String} (h : parse text = .ok e) : e.Readable := by
  obtain ⟨⟨item, rest⟩, hread, h⟩ := bind_eq_ok.1 h
  dsimp only at h
  by_cases hrest : skipBlanks rest = []
  · rw [if_pos hrest, pure_eq_ok] at h
    exact h ▸ readable_of_read _ hread
  · rw [if_neg hrest] at h
    cases h

/-- **The readable expressions are those that survive their text.** Each of them is read back, the
reader returns no others, and so what was read from any text is read again from its own. -/
theorem parse_render_eq_ok_iff :
    (∀ e : Sexp, parse e.render = .ok e ↔ e.Readable) ∧
      ∀ (text : String) (e : Sexp), parse text = .ok e → e.Readable ∧ parse e.render = .ok e :=
  ⟨fun _ => ⟨readable_of_parse, parse_render⟩,
    fun _ _ h => ⟨readable_of_parse h, parse_render (readable_of_parse h)⟩⟩

/-- Quotes at the ends of a literal, an empty literal, an empty list and blanks in odd places. -/
theorem parse_render_quoted_quote :
    parse " (f\"\"\"\" ( ) \"\" )\n" =
        .ok (.list [.atom "f", .quoted "\"", .list [], .quoted ""]) ∧
      parse (Sexp.list [.atom "f", .quoted "\"", .list [], .quoted ""]).render =
        .ok (.list [.atom "f", .quoted "\"", .list [], .quoted ""]) :=
  have hread : parse " (f\"\"\"\" ( ) \"\" )\n" =
      .ok (.list [.atom "f", .quoted "\"", .list [], .quoted ""]) := by decide +kernel
  ⟨hread, (parse_render_eq_ok_iff.2 _ _ hread).2⟩

/-! ## characters of symbols -/

/-- The code points of the blank characters. -/
def blankCodes : List Nat :=
  [0x9, 0xA, 0xB, 0xC, 0xD, 0x20, 0x85, 0xA0, 0x1680, 0x2000, 0x2001, 0x2002, 0x2003, 0x2004,
    0x2005, 0x2006, 0x2007, 0x2008, 0x2009, 0x200A, 0x2028, 0x2029, 0x202F, 0x205F, 0x3000]

theorem mem_blankCodes_of_isBlank (h : isBlank c = true) : c.toNat ∈ blankCodes := by
  simp only [isBlank, Bool.or_eq_true, Bool.and_eq_true, decide_eq_true_eq, beq_iff_eq] at h
  simp only [blankCodes, List.mem_cons, List.not_mem_nil, or_false]
  omega

/-- A character of a symbol can stand in an atom. -/
theorem isAtomChar_of_isSymbolChar (h : isSymbolChar c = true) :
    isAtomChar c = true := by
  have hnone : ∀ n ∈ '('.toNat :: ')'.toNat :: '"'.toNat :: blankCodes,
      isSymbolChar (Char.ofNat n) = false := by decide +kernel
  have hmem : c.toNat ∉ '('.toNat :: ')'.toNat :: '"'.toNat :: blankCodes := by
    intro hc
    have hnot := hnone _ hc
    rw [Char.ofNat_toNat] at hnot
    exact Bool.noConfusion (h.symm.trans hnot)
  simp only [List.mem_cons, not_or, Char.toNat_inj] at hmem
  obtain ⟨hopen, hclose, hquote, hblank⟩ := hmem
  have hnot : isBlank c = false := by
    rw [← Bool.not_eq_true]
    exact fun hb => hblank (mem_blankCodes_of_isBlank hb)
  simp [isAtomChar, hnot, hopen, hclose, hquote]

theorem isAtomChar_of_mem_symbol {name : String} (h : c ∈ (Text.symbol name).toList) :
    isAtomChar c = true := by
  rw [Text.symbol, String.toList_ofList] at h
  exact isAtomChar_of_isSymbolChar (isSymbolChar_of_mem_symbolChars h)

end Pathwise.Sexp
