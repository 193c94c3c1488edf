import Pathwise.Coverage.Site
import Pathwise.Proofs.RoundTrip
import Pathwise.Proofs.Wording.Name

/-!
# Pathwise.Proofs.Renaming

Renaming in a text agrees with renaming in the expression that is read from it
(`Renaming.parse_renamed_eq_ok_iff`). The renamer goes through a text once, with the token
it is in, while the reader goes down into lists; what they have in common is where
tokens end. The text that `scan` writes begins with the same character as the one it
reads (`Renaming.head?_scan`), so both readers find blanks, brackets, quotes and the
ends of atoms in the same places.

The reader is given fuel by the length of the text, and renaming makes a text longer.
Fuel never decides, though: all amounts from two steps a character upwards give the
same (`Sexp.read_eq_read`).
-/

namespace Pathwise

namespace Sexp

open Text

variable {cs : List Char} {c : Char}

/-! ## fuel -/

/-- What `read` does, by the first character that is not blank. -/
theorem read_succ {cs rest : List Char} (h : skipBlanks cs = c :: rest) (fuel : Nat) :
    read (fuel + 1) cs =
      if c = '(' then (readItems fuel rest).map fun q => (.list q.1, q.2)
      else if c = ')' then .error .strayClose
      else if c = '"' then
        (readQuoted rest).elim (.error .unterminatedString)
          fun q => .ok (.quoted (.ofList q.1), q.2)
      else
        .ok (.atom (.ofList ((c :: rest).takeWhile isAtomChar)),
          (c :: rest).dropWhile isAtomChar) := by
  rw [read, h]
  split
  · contradiction
  · next heq =>
      obtain ⟨rfl, rfl⟩ := List.cons.inj heq
      rw [if_pos rfl]
      cases readItems fuel _ <;> rfl
  · next heq =>
      obtain ⟨rfl, rfl⟩ := List.cons.inj heq
      rfl
  · next heq =>
      obtain ⟨rfl, rfl⟩ := List.cons.inj heq
      rw [if_neg (by decide), if_neg (by decide), if_pos rfl]
      split <;> simp [*]
  · next hopen hclose hquote heq =>
      obtain ⟨rfl, rfl⟩ := List.cons.inj heq
      simp_all

theorem read_of_nil (h : skipBlanks cs = []) (fuel : Nat) :
    read (fuel + 1) cs = .error .endOfInput := by
  rw [read, h]

/-- What `readItems` does, by the first character that is not blank. -/
theorem readItems_succ {cs rest : List Char} (h : skipBlanks cs = c :: rest) (fuel : Nat) :
    readItems (fuel + 1) cs =
      if c = ')' then .ok ([], rest)
      else
        read fuel (c :: rest) >>= fun q => (readItems fuel q.2).map fun t => (q.1 :: t.1, t.2) := by
  rw [readItems, h]
  split
  · contradiction
  · next heq =>
      obtain ⟨rfl, rfl⟩ := List.cons.inj heq
      rfl
  · next hclose =>
      rw [if_neg fun hc => hclose rest (by rw [hc])]
      refine congrArg (read fuel (c :: rest) >>= ·) (funext fun q => ?_)
      change (readItems fuel q.2 >>= fun t => pure (q.1 :: t.1, t.2)) = _
      cases readItems fuel q.2 <;> rfl

theorem readItems_of_nil (h : skipBlanks cs = []) (fuel : Nat) :
    readItems (fuel + 1) cs = .error .unclosedList := by
  rw [readItems, h]

theorem length_skipBlanks_le (cs : List Char) : (skipBlanks cs).length ≤ cs.length :=
  (List.dropWhile_suffix _).length_le

theorem length_lt_of_readQuoted {q : List Char × List Char} (h : readQuoted cs = some q) :
    q.2.length < cs.length := by
  fun_induction readQuoted cs generalizing q with
  | case1 => contradiction
  | case2 cs ih =>
      obtain ⟨q', hq', rfl⟩ := Option.map_eq_some_iff.1 h
      have := ih hq'
      simp only [List.length_cons]
      omega
  | case3 cs =>
      obtain rfl := Option.some.inj h
      exact Nat.lt_succ_self _
  | case4 c cs _ _ ih =>
      obtain ⟨q', hq', rfl⟩ := Option.map_eq_some_iff.1 h
      have := ih hq'
      simp only [List.length_cons]
      omega

theorem isAtomChar_of_ne (hblank : isBlank c = false) (hopen : c ≠ '(') (hclose : c ≠ ')')
    (hquote : c ≠ '"') : isAtomChar c = true := by
  simp [isAtomChar, *]

mutual

/-- An expression takes at least one character. -/
theorem length_lt_of_read : (fuel : Nat) → {cs : List Char} → {q : Sexp × List Char} →
    read fuel cs = .ok q → q.2.length < cs.length
  | 0, cs, q, h => by
      rw [read] at h
      contradiction
  | fuel + 1, cs, q, h => by
      cases hskip : skipBlanks cs with
      | nil =>
          rw [read_of_nil hskip] at h
          contradiction
      | cons c rest =>
          have hle := length_skipBlanks_le cs
          rw [hskip, List.length_cons] at hle
          rw [read_succ hskip] at h
          split at h
          · obtain ⟨t, ht, rfl⟩ := map_eq_ok.1 h
            exact (length_lt_of_readItems fuel ht).trans hle
          · split at h
            · contradiction
            · split at h
              · cases hquoted : readQuoted rest with
                | none => simp [hquoted] at h
                | some t =>
                    simp only [hquoted, Option.elim_some, Except.ok.injEq] at h
                    subst h
                    exact (length_lt_of_readQuoted hquoted).trans hle
              · next hopen hclose hquote =>
                  obtain rfl := Except.ok.inj h
                  have hc := isAtomChar_of_ne (isBlank_of_skipBlanks hskip) hopen hclose hquote
                  rw [List.dropWhile_cons_of_pos hc]
                  exact Nat.lt_of_le_of_lt (List.dropWhile_suffix _).length_le hle

theorem length_lt_of_readItems : (fuel : Nat) → {cs : List Char} → {q : List Sexp × List Char} →
    readItems fuel cs = .ok q → q.2.length < cs.length
  | 0, cs, q, h => by
      rw [readItems] at h
      contradiction
  | fuel + 1, cs, q, h => by
      cases hskip : skipBlanks cs with
      | nil =>
          rw [readItems_of_nil hskip] at h
          contradiction
      | cons c rest =>
          have hle := length_skipBlanks_le cs
          rw [hskip] at hle
          rw [readItems_succ hskip] at h
          split at h
          · obtain rfl := Except.ok.inj h
            exact hle
          · obtain ⟨first, hfirst, h⟩ := bind_eq_ok.1 h
            obtain ⟨more, hmore, rfl⟩ := map_eq_ok.1 h
            have := length_lt_of_read fuel hfirst
            have := length_lt_of_readItems fuel hmore
            simp only
            omega

end

mutual

/-- **Fuel never decides**: two steps a character are as good as any more. -/
theorem read_eq_read : (n m : Nat) → (cs : List Char) → 2 * cs.length + 1 ≤ n →
    2 * cs.length + 1 ≤ m → read n cs = read m cs
  | n + 1, m + 1, cs, hn, hm => by
      cases hskip : skipBlanks cs with
      | nil => rw [read_of_nil hskip, read_of_nil hskip]
      | cons c rest =>
          have hle := length_skipBlanks_le cs
          rw [hskip, List.length_cons] at hle
          rw [read_succ hskip, read_succ hskip,
            readItems_eq_readItems n m rest (by omega) (by omega)]
  | 0, _, _, hn, _ => by omega
  | _ + 1, 0, _, _, hm => by omega

theorem readItems_eq_readItems : (n m : Nat) → (cs : List Char) → 2 * cs.length + 2 ≤ n →
    2 * cs.length + 2 ≤ m → readItems n cs = readItems m cs
  | n + 1, m + 1, cs, hn, hm => by
      cases hskip : skipBlanks cs with
      | nil => rw [readItems_of_nil hskip, readItems_of_nil hskip]
      | cons c rest =>
          have hle := length_skipBlanks_le cs
          rw [hskip] at hle
          rw [readItems_succ hskip, readItems_succ hskip,
            read_eq_read n m (c :: rest) (by omega) (by omega)]
          cases hfirst : read m (c :: rest) with
          | error err => rfl
          | ok first =>
              have hlt := length_lt_of_read m hfirst
              change (if c = ')' then _ else (readItems n first.2).map _) =
                (if c = ')' then _ else _)
              rw [readItems_eq_readItems n m first.2 (by omega) (by omega)]
              rfl
  | 0, _, _, hn, _ => by omega
  | _ + 1, 0, _, _, hm => by omega

end

/-- A text holds one expression if it can be read with enough fuel and only blanks are left. -/
theorem parse_eq_ok_iff {text : String} {e : Sexp} {fuel : Nat} (h : 2 * text.length + 1 ≤ fuel) :
    parse text = .ok e ↔ ∃ rest, read fuel text.toList = .ok (e, rest) ∧ skipBlanks rest = [] := by
  have hlength : text.toList.length = text.length := String.length_toList
  unfold parse
  rw [read_eq_read (2 * text.length + 1) fuel _ (by omega) (by omega), bind_eq_ok]
  constructor
  · rintro ⟨q, hq, h⟩
    dsimp only at h
    split at h
    · next hrest =>
        obtain rfl := pure_eq_ok.1 h
        exact ⟨q.2, hq, hrest⟩
    · contradiction
  · rintro ⟨rest, hread, hrest⟩
    exact ⟨_, hread, if_pos hrest⟩

end Sexp

namespace Renaming

open Sexp (isAtomChar IsPlain skipBlanks readQuoted read readItems)
open Text (isBlank)

variable {r : Renaming} {cs : List Char} {c : Char}

/-! ## tokens -/

/-- A renamed symbol begins with the symbol. -/
theorem exists_symbol_eq_append (r : Renaming) (name : String) :
    ∃ more, r.symbol name = name ++ more := by
  unfold symbol
  split
  · exact ⟨"!" ++ r.suffix, String.append_assoc⟩
  · exact ⟨"", by simp⟩

theorem scan_append (hcs : ∀ c ∈ cs, isAtomChar c = true) (token rest : List Char) :
    r.scan token (cs ++ rest) = r.scan (cs.reverse ++ token) rest := by
  induction cs generalizing token with
  | nil => rfl
  | cons c cs ih =>
      rw [List.forall_mem_cons] at hcs
      have hquote : c ≠ '"' := (Sexp.isBlank_eq_false_of_isAtomChar hcs.1).2.2.2
      rw [List.cons_append, scan, if_neg hquote, if_pos hcs.1, ih hcs.2, List.reverse_cons,
        List.append_assoc]
      rfl

/-- The end of a token: nothing, or a character that no token can hold. -/
def AtEnd (cs : List Char) : Prop := ∀ c ∈ cs.head?, isAtomChar c = false

theorem atEnd_dropWhile (cs : List Char) : AtEnd (cs.dropWhile isAtomChar) := by
  intro c hc
  have hne : cs.dropWhile isAtomChar ≠ [] := by
    rintro hnil
    simp [hnil] at hc
  have hhead := List.head_dropWhile_not isAtomChar hne
  rw [List.head?_eq_some_head hne] at hc
  rwa [Option.some.inj hc] at hhead

/-- Behind a token, the rest is scanned as if it stood alone. -/
theorem scan_of_atEnd {rest : List Char} (h : AtEnd rest) (token : List Char) :
    r.scan token rest = r.flush token ++ r.scan [] rest := by
  have hnil : r.flush [] = [] := rfl
  cases rest with
  | nil => rw [scan, scan, hnil, List.append_nil]
  | cons c rest =>
      have hc : isAtomChar c = false := h c rfl
      rw [scan, scan, hnil]
      by_cases hquote : c = '"'
      · rw [if_pos hquote, if_pos hquote, List.nil_append]
      · rw [if_neg hquote, if_neg hquote, hc, if_neg Bool.false_ne_true, if_neg Bool.false_ne_true,
          List.nil_append]

/-- A token is renamed as a whole. -/
theorem scan_token (hc : isAtomChar c = true) (cs : List Char) :
    r.scan [] (c :: cs) =
      (r.symbol (.ofList ((c :: cs).takeWhile isAtomChar))).toList ++
        r.scan [] ((c :: cs).dropWhile isAtomChar) := by
  have hall : ∀ d ∈ (c :: cs).takeWhile isAtomChar, isAtomChar d = true :=
    fun d hd => List.mem_takeWhile_imp hd
  have hne : ((c :: cs).takeWhile isAtomChar).reverse ++ [] ≠ [] := by
    simp [List.takeWhile_cons_of_pos hc]
  calc r.scan [] (c :: cs)
    _ = r.scan [] ((c :: cs).takeWhile isAtomChar ++ (c :: cs).dropWhile isAtomChar) := by
        rw [List.takeWhile_append_dropWhile]
    _ = _ := by
        rw [scan_append hall, scan_of_atEnd (atEnd_dropWhile _), flush, if_neg hne, List.append_nil,
          List.reverse_reverse]

/-- **Scanning keeps the first character.** -/
theorem head?_scan (cs : List Char) : (r.scan [] cs).head? = cs.head? := by
  cases cs with
  | nil => rfl
  | cons c cs =>
      by_cases hc : isAtomChar c = true
      · obtain ⟨more, hmore⟩ := r.exists_symbol_eq_append (.ofList ((c :: cs).takeWhile isAtomChar))
        rw [scan_token hc, hmore, String.toList_append, String.toList_ofList,
          List.takeWhile_cons_of_pos hc]
        rfl
      · by_cases hquote : c = '"'
        · rw [scan, if_pos hquote, hquote]
          rfl
        · rw [scan, if_neg hquote, if_neg hc]
          rfl

theorem scan_eq_nil_iff : r.scan [] cs = [] ↔ cs = [] := by
  rw [← List.head?_eq_none_iff, head?_scan, List.head?_eq_none_iff]

theorem atEnd_scan (h : AtEnd cs) : AtEnd (r.scan [] cs) := by
  rwa [AtEnd, head?_scan]

/-- Renaming neither makes nor removes blanks between items. -/
theorem skipBlanks_scan (cs : List Char) :
    skipBlanks (r.scan [] cs) = r.scan [] (skipBlanks cs) := by
  induction cs with
  | nil => rfl
  | cons c cs ih =>
      by_cases hblank : isBlank c = true
      · have hquote : c ≠ '"' := by
          rintro rfl
          contradiction
        have hatom : ¬isAtomChar c = true := by simp [isAtomChar, hblank]
        have hscan : r.scan [] (c :: cs) = c :: r.scan [] cs := by
          rw [scan, if_neg hquote, if_neg hatom]
          rfl
        rw [hscan, skipBlanks, skipBlanks, List.dropWhile_cons_of_pos hblank,
          List.dropWhile_cons_of_pos hblank]
        exact ih
      · have hkeep : ∀ ds, skipBlanks (c :: ds) = c :: ds := fun ds =>
          List.dropWhile_cons_of_neg hblank
        obtain ⟨ds, hds⟩ : ∃ ds, r.scan [] (c :: cs) = c :: ds :=
          List.head?_eq_some_iff.1 (head?_scan (c :: cs))
        rw [hkeep, hds, hkeep]

/-! ## reading what was scanned -/

theorem readQuoted_cons (hc : c ≠ '"') (cs : List Char) :
    readQuoted (c :: cs) = (readQuoted cs).map fun q => (c :: q.1, q.2) := by
  rw [readQuoted]
  · rw [if_neg hc]
  · simp [hc]

theorem readQuoted_end (h : cs.head? ≠ some '"') :
    readQuoted ('"' :: cs) = some ([], cs) := by
  rw [readQuoted]
  · rw [if_pos rfl]
  · rintro ds - rfl
    exact h rfl

/-- A string literal is copied. -/
theorem readQuoted_scanQuoted (cs : List Char) :
    readQuoted (r.scanQuoted cs) = (readQuoted cs).map fun q => (q.1, r.scan [] q.2) := by
  fun_induction readQuoted cs with
  | case1 => rfl
  | case2 cs ih =>
      rw [scanQuoted, readQuoted, ih]
      simp only [Option.map_map]
      rfl
  | case3 cs hnext =>
      have hhead : cs.head? ≠ some '"' := by
        intro hhead
        obtain ⟨ds, rfl⟩ := List.head?_eq_some_iff.1 hhead
        exact hnext ds rfl rfl
      rw [scanQuoted, if_pos rfl, readQuoted_end (by rwa [head?_scan])]
      · rfl
      · exact hnext
  | case4 c cs hnext hc ih =>
      rw [scanQuoted, if_neg hc, readQuoted_cons hc, ih]
      · simp only [Option.map_map]
        rfl
      · exact hnext

theorem takeWhile_of_atEnd {cs rest : List Char} (hcs : ∀ c ∈ cs, isAtomChar c = true)
    (hrest : AtEnd rest) : (cs ++ rest).takeWhile isAtomChar = cs ∧
      (cs ++ rest).dropWhile isAtomChar = rest := by
  have hstop : rest.takeWhile isAtomChar = [] ∧ rest.dropWhile isAtomChar = rest := by
    cases rest with
    | nil => simp
    | cons c rest => simp [hrest c rfl]
  rw [List.takeWhile_append_of_pos hcs, List.dropWhile_append_of_pos hcs, hstop.1, hstop.2]
  exact ⟨List.append_nil cs, rfl⟩

/-- An atom is renamed and ends where it ended. -/
theorem takeWhile_scan (hr : IsPlain r.suffix) (hc : isAtomChar c = true) (cs : List Char) :
    (r.scan [] (c :: cs)).takeWhile isAtomChar =
        (r.symbol (.ofList ((c :: cs).takeWhile isAtomChar))).toList ∧
      (r.scan [] (c :: cs)).dropWhile isAtomChar = r.scan [] ((c :: cs).dropWhile isAtomChar) := by
  have htoken : IsPlain (.ofList ((c :: cs).takeWhile isAtomChar)) := by
    intro d hd
    rw [String.toList_ofList] at hd
    exact List.mem_takeWhile_imp hd
  rw [scan_token hc]
  exact takeWhile_of_atEnd (isPlain_symbol_of_isPlain hr htoken) (atEnd_scan (atEnd_dropWhile _))

mutual

/-- **Reading commutes with renaming**, whether it succeeds or fails: what is read is renamed, and
so is what follows it. -/
theorem read_scan (hr : IsPlain r.suffix) : (fuel : Nat) → (cs : List Char) →
    read fuel (r.scan [] cs) =
      (read fuel cs).map fun q => (q.1.mapAtoms r.symbol, r.scan [] q.2)
  | 0, cs => by
      rw [Sexp.read, Sexp.read]
      rfl
  | fuel + 1, cs => by
      cases hskip : skipBlanks cs with
      | nil =>
          have hscan : skipBlanks (r.scan [] cs) = [] := by
            rw [skipBlanks_scan, hskip]
            rfl
          rw [Sexp.read_of_nil hscan, Sexp.read_of_nil hskip]
          rfl
      | cons c rest =>
          obtain ⟨more, hmore⟩ : ∃ more, r.scan [] (c :: rest) = c :: more :=
            List.head?_eq_some_iff.1 (head?_scan (c :: rest))
          have hscan : skipBlanks (r.scan [] cs) = c :: more := by
            rw [skipBlanks_scan, hskip, hmore]
          rw [Sexp.read_succ hscan, Sexp.read_succ hskip]
          have hnext (hc : ¬isAtomChar c = true) (hquote : c ≠ '"') : more = r.scan [] rest := by
            rw [scan, if_neg hquote, if_neg hc] at hmore
            exact (List.cons.inj hmore).2.symm
          by_cases hopen : c = '('
          · rw [if_pos hopen, if_pos hopen, hnext (by subst hopen; decide) (by subst hopen; decide),
              readItems_scan hr fuel rest]
            cases readItems fuel rest <;> rfl
          rw [if_neg hopen, if_neg hopen]
          by_cases hclose : c = ')'
          · rw [if_pos hclose, if_pos hclose]
            rfl
          rw [if_neg hclose, if_neg hclose]
          by_cases hquote : c = '"'
          · rw [scan, if_pos hquote] at hmore
            rw [if_pos hquote, if_pos hquote, ← (List.cons.inj hmore).2, readQuoted_scanQuoted]
            cases readQuoted rest <;> rfl
          · have hc := Sexp.isAtomChar_of_ne (Sexp.isBlank_of_skipBlanks hskip) hopen hclose hquote
            rw [if_neg hquote, if_neg hquote, ← hmore, (takeWhile_scan hr hc rest).1,
              (takeWhile_scan hr hc rest).2, String.ofList_toList]
            rfl

theorem readItems_scan (hr : IsPlain r.suffix) : (fuel : Nat) → (cs : List Char) →
    readItems fuel (r.scan [] cs) =
      (readItems fuel cs).map fun q => (Sexp.mapAtomsList r.symbol q.1, r.scan [] q.2)
  | 0, cs => by
      rw [readItems, readItems]
      rfl
  | fuel + 1, cs => by
      cases hskip : skipBlanks cs with
      | nil =>
          have hscan : skipBlanks (r.scan [] cs) = [] := by
            rw [skipBlanks_scan, hskip]
            rfl
          rw [Sexp.readItems_of_nil hscan, Sexp.readItems_of_nil hskip]
          rfl
      | cons c rest =>
          obtain ⟨more, hmore⟩ : ∃ more, r.scan [] (c :: rest) = c :: more :=
            List.head?_eq_some_iff.1 (head?_scan (c :: rest))
          have hscan : skipBlanks (r.scan [] cs) = c :: more := by
            rw [skipBlanks_scan, hskip, hmore]
          rw [Sexp.readItems_succ hscan, Sexp.readItems_succ hskip]
          by_cases hclose : c = ')'
          · subst hclose
            rw [scan, if_neg (by decide), if_neg (by decide)] at hmore
            rw [if_pos rfl, if_pos rfl, ← (List.cons.inj hmore).2]
            rfl
          · rw [if_neg hclose, if_neg hclose, ← hmore, read_scan hr fuel (c :: rest)]
            cases read fuel (c :: rest) with
            | error err => rfl
            | ok first =>
                change (readItems fuel (r.scan [] first.2)).map _ =
                  ((readItems fuel first.2).map _).map _
                rw [readItems_scan hr fuel first.2]
                cases readItems fuel first.2 <;> rfl

end

/-- **Renaming agrees with the reader.** A renamed text is accepted if and only if the text is, and
then the expression is the renamed one: each atom among the symbols gets the suffix of the site
behind `!`, and every other atom and all string literals stay. -/
theorem parse_renamed_eq_ok_iff (symbols : List String) (site : Site) (text : String) (e' : Sexp) :
    Sexp.parse (Renaming.text ⟨symbols, site.suffix⟩ text) = .ok e' ↔
      ∃ e, Sexp.parse text = .ok e ∧
        e.mapAtoms (fun a => if a ∈ symbols then a ++ "!" ++ site.suffix else a) = e' := by
  obtain ⟨r, hr⟩ : ∃ r : Renaming, r = ⟨symbols, site.suffix⟩ := ⟨_, rfl⟩
  have hsuffix : IsPlain r.suffix := hr ▸ site.isPlain_suffix
  have hsymbol : (fun a => if a ∈ symbols then a ++ "!" ++ site.suffix else a) = r.symbol := by
    rw [hr]
    rfl
  rw [← hr, hsymbol]
  -- one amount of fuel for both texts
  have hfuel := And.intro (Nat.le_max_left (2 * text.length + 1) (2 * (r.text text).length + 1))
    (Nat.le_max_right (2 * text.length + 1) (2 * (r.text text).length + 1))
  have htext : (r.text text).toList = r.scan [] text.toList := String.toList_ofList
  rw [Sexp.parse_eq_ok_iff hfuel.2, htext, read_scan hsuffix]
  simp only [Sexp.parse_eq_ok_iff hfuel.1]
  constructor
  · rintro ⟨rest, hread, hrest⟩
    obtain ⟨q, hq, heq⟩ := map_eq_ok.1 hread
    obtain ⟨rfl, rfl⟩ := Prod.mk.inj heq
    rw [skipBlanks_scan, scan_eq_nil_iff] at hrest
    exact ⟨q.1, ⟨q.2, hq, hrest⟩, rfl⟩
  · rintro ⟨e, ⟨rest, hread, hrest⟩, rfl⟩
    refine ⟨r.scan [] rest, map_eq_ok.2 ⟨_, hread, rfl⟩, ?_⟩
    rw [skipBlanks_scan, scan_eq_nil_iff]
    exact hrest

example : text ⟨["M!p0", "M!s0"], "3_1"⟩ "(= M!s0 (+ M!p0 M!p01 \"M!p0 \"\" M!s0\"))" =
    "(= M!s0!3_1 (+ M!p0!3_1 M!p01 \"M!p0 \"\" M!s0\"))" := by
  decide

end Renaming

end Pathwise
