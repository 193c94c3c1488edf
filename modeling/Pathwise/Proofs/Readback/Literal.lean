import Pathwise.Proofs.Readback.Table

/-!
# Pathwise.Proofs.Readback.Literal

Literals that are written into assertions are read back unchanged
(`ConstantTable.literals_read_back`): integers with their sign, which stands outside,
and texts with their quotes, which are written twice. Nothing in a literal reaches
the term around it: a text of quotes and brackets stays one item of its list.

What can be misread is only the operand, which is why it has to be one atom.
-/

namespace Pathwise

open Sexp (IsAtom Readable)

namespace Sexp

theorem readable_eq {a b : Sexp} (ha : a.Readable) (hb : b.Readable) : (eq a b).Readable :=
  readable_app (by decide) (by simpa using ⟨ha, hb⟩)

theorem parse_quote (text : String) : parse (quote text) = .ok (.quoted text) :=
  parse_render (e := .quoted text) trivial

/-- The text of a constructor applied to three terms, the last of them a string literal. -/
theorem render_app_quoted (f : String) (a b : Sexp) (text : String) :
    (app f [a, b, .quoted text]).render =
      "(" ++ f ++ " " ++ a.render ++ " " ++ b.render ++ " " ++ quote text ++ ")" := by
  simp [app, render, renderMore, String.append_assoc]

end Sexp

namespace ConstantTable

variable {exceptionBase : Option TypeRef} {p : Program} {s : Sentence} {x : String}

theorem isInt64_toInt (i : Int64) : Number.IsInt64 i.toInt :=
  ⟨Int64.minValue_le_toInt i, Int64.toInt_le i⟩

/-- An object of type `String` is read from its constructor, whatever its text holds. -/
theorem bind_string {t : ConstantTable} {name : String} {pointer tag : Sexp} {n : Int}
    (hname : t.declared.find? name = some .string) (hs : t.sentences.find? .string = some s)
    (hencode : Sentence.encode exceptionBase p .string = .ok s) (hpointer : pointer.Readable)
    (htag : tag.Readable) (hn : readInt .string pointer = .ok n) (text : String) :
    t.bind name
        ("(Str_ctor " ++ pointer.render ++ " " ++ tag.render ++ " " ++ Sexp.quote text ++ ")") =
      .ok (.record .string (t.runtimeType .string tag) n [("value", .text text)], { t with
        values := t.values.set name
          (.record .string (t.runtimeType .string tag) n [("value", .text text)]) }) := by
  have hreadable : (Sexp.app "Str_ctor" [pointer, tag, .quoted text]).Readable := by
    have htext : (Sexp.quoted text).Readable := trivial
    exact Sexp.readable_app (by decide) (by simpa using ⟨hpointer, htag, htext⟩)
  have hparse := Sexp.parse_render hreadable
  rw [Sexp.render_app_quoted] at hparse
  obtain rfl := Except.ok.inj hencode
  have hread : t.readValue .string (.app "Str_ctor" [pointer, tag, .quoted text]) =
      .ok (.record .string (t.runtimeType .string tag) n [("value", .text text)]) := by
    have hdatatype : TypeRef.string.HasDatatype := by
      simp [TypeRef.HasDatatype, TypeRef.IsReference]
    have hconstructor : (Sentence.reference .string .str (some .object) []).constructor? =
        some { name := "Str_ctor", accessors := [.ofField "Str" "ptr" (.atom "Int"),
          .ofField "Str" "type" typeSort, .ofField "Str" "value" (.atom "String")] } := rfl
    have hfields : t.readFields .string .str [.quoted text] = .ok [("value", .text text)] := by
      rw [readFields]
    rw [Sexp.app, readValue_list hdatatype (by simp) hs]
    simp only [readRecord, hconstructor, List.length_cons, List.length_nil, and_self, if_true,
      Pathwise.bind_eq_ok, pure_eq_ok]
    exact ⟨n, hn, _, hfields, rfl⟩
  exact bind_eq_ok_iff.2 ⟨.string, _, hname, hparse, hread, rfl⟩

/-! ## literals in assertions -/

theorem parse_holdsLiteral_bool (hx : IsAtom x) (b : Bool)
    (hs : Sentence.encode exceptionBase p .bool = .ok s) :
    ∃ e, s.apply (.holdsLiteral (.atom x) (.bool b)) = .ok e ∧
      Sexp.parse e.render = .ok (.eq (.atom x) (.atom (if b then "true" else "false"))) := by
  obtain rfl := Except.ok.inj hs
  have hb : IsAtom (if b then "true" else "false") := by cases b <;> decide
  exact ⟨_, rfl, Sexp.parse_render (Sexp.readable_eq hx hb)⟩

theorem parse_holdsLiteral_int (hx : IsAtom x) (i : Int)
    (hs : Sentence.encode exceptionBase p .int32 = .ok s) :
    ∃ e, s.apply (.holdsLiteral (.atom x) (.int i)) = .ok e ∧
      Sexp.parse e.render = .ok (.eq (.atom x) (.int i)) := by
  obtain rfl := Except.ok.inj hs
  exact ⟨_, rfl, Sexp.parse_render (Sexp.readable_eq hx (Sexp.readable_int i))⟩

theorem parse_holdsLiteral_str (hx : IsAtom x) (text : String)
    (hs : Sentence.encode exceptionBase p .string = .ok s) :
    ∃ e, s.apply (.holdsLiteral (.atom x) (.str text)) = .ok e ∧
      Sexp.parse e.render = .ok (.and (Sexp.eq (.atom x) (.atom "Str_null")).not
        (.eq (.app "Str_value" [.atom x]) (.quoted text))) := by
  obtain rfl := Except.ok.inj hs
  have hnull : (Sexp.atom "Str_null").Readable := (by decide : IsAtom "Str_null")
  have hsome : (Sexp.eq (.atom x) (.atom "Str_null")).not.Readable :=
    Sexp.readable_app (by decide) (List.forall_mem_singleton.2 (Sexp.readable_eq hx hnull))
  have hvalue : (Sexp.app "Str_value" [.atom x]).Readable :=
    Sexp.readable_app (by decide) (List.forall_mem_singleton.2 hx)
  have hequal : (Sexp.eq (.app "Str_value" [.atom x]) (.quoted text)).Readable :=
    Sexp.readable_eq hvalue trivial
  exact ⟨_, rfl, Sexp.parse_render
    (Sexp.readable_app (by decide) (by simpa using ⟨hsome, hequal⟩))⟩

/-- **Literals are read back unchanged.** The text of a 64-bit integer is read as that integer. The
text of a string is one string literal, and as the third argument of the constructor of `String` it
is bound as that string. The assertion that an atom holds a literal is a comparison with exactly the
term of the literal. -/
theorem literals_read_back (exceptionBase : Option TypeRef) (p : Program) :
    (∀ (type : TypeRef) (i : Int64), Sexp.parse (Sexp.int i.toInt).render = .ok (.int i.toInt) ∧
      readInt type (.int i.toInt) = .ok i.toInt) ∧
    (∀ text : String, Sexp.parse (Sexp.quote text) = .ok (.quoted text) ∧
      ∀ (t : ConstantTable) (s : Sentence) (name : String) (pointer tag : Sexp) (n : Int),
        t.declared.find? name = some .string → t.sentences.find? .string = some s →
        Sentence.encode exceptionBase p .string = .ok s → pointer.Readable → tag.Readable →
        readInt .string pointer = .ok n → ∃ t',
          t.bind name
              ("(Str_ctor " ++ pointer.render ++ " " ++ tag.render ++ " " ++
                Sexp.quote text ++ ")") =
            .ok (.record .string (t.runtimeType .string tag) n [("value", .text text)], t') ∧
          t'.value? name =
            some (.record .string (t.runtimeType .string tag) n [("value", .text text)])) ∧
    ∀ (x : String) (s : Sentence), IsAtom x →
      (∀ b, Sentence.encode exceptionBase p .bool = .ok s →
        ∃ e, s.apply (.holdsLiteral (.atom x) (.bool b)) = .ok e ∧
          Sexp.parse e.render = .ok (.eq (.atom x) (.atom (if b then "true" else "false")))) ∧
      (∀ i : Int32, Sentence.encode exceptionBase p .int32 = .ok s →
        ∃ e, s.apply (.holdsLiteral (.atom x) (.int i.toInt)) = .ok e ∧
          Sexp.parse e.render = .ok (.eq (.atom x) (.int i.toInt))) ∧
      ∀ text, Sentence.encode exceptionBase p .string = .ok s →
        ∃ e, s.apply (.holdsLiteral (.atom x) (.str text)) = .ok e ∧
          Sexp.parse e.render = .ok (.and (Sexp.eq (.atom x) (.atom "Str_null")).not
            (.eq (.app "Str_value" [.atom x]) (.quoted text))) := by
  refine ⟨fun type i => ?_, fun text => ⟨Sexp.parse_quote text, ?_⟩, fun x s hx => ?_⟩
  · exact ⟨Sexp.parse_render (Sexp.readable_int _), readInt_int type (isInt64_toInt i)⟩
  · intro t s name pointer tag n hname hs hencode hpointer htag hn
    refine ⟨_, bind_string hname hs hencode hpointer htag hn text, ?_⟩
    simp [value?, Table.find?_set]
  · exact ⟨fun b => parse_holdsLiteral_bool hx b, fun i => parse_holdsLiteral_int hx i.toInt,
      fun text => parse_holdsLiteral_str hx text⟩

end ConstantTable

namespace Sample.Quotes

/-- A table with a constant of type `String`. -/
def table : ConstantTable :=
  (ConstantTable.empty.register (.reference .string .str (some .object) [])).declare "label" .string

/-- The text `"("`, which is all quotes and brackets, is bound behind the least pointer, and is the
last item of the assertion about it. -/
theorem read_back_quotes :
    (∃ t', table.bind "label" "(Str_ctor (- 9223372036854775808) Str_tag \"\"\"(\"\"\")" =
      .ok (.record .string .string (-9223372036854775808) [("value", .text "\"(\"")], t')) ∧
    ∃ e, (Sentence.reference .string .str (some .object) []).apply
        (.holdsLiteral (.atom "x") (.str "\"(\"")) = .ok e ∧
      Sexp.parse e.render = .ok (.and (Sexp.eq (.atom "x") (.atom "Str_null")).not
        (.eq (.app "Str_value" [.atom "x"]) (.quoted "\"(\""))) := by
  obtain ⟨-, htexts, hliterals⟩ := ConstantTable.literals_read_back none .empty
  constructor
  · have hdigits : IsAtom "9223372036854775808" := by decide
    have hpointer : (Sexp.app "-" [.atom "9223372036854775808"]).Readable :=
      Sexp.readable_app (by decide) (List.forall_mem_singleton.2 hdigits)
    have htag : IsAtom "Str_tag" := by decide
    obtain ⟨t', hbind, -⟩ := (htexts "\"(\"").2 table _ "label" _ (.atom "Str_tag")
      (-9223372036854775808) rfl rfl rfl hpointer htag rfl
    exact ⟨t', hbind⟩
  · exact (hliterals "x" _ (by decide)).2.2 "\"(\"" rfl

end Sample.Quotes

end Pathwise
