import Mathlib.Logic.Function.Basic
import Pathwise.Proofs.Declarations.Lines
import Pathwise.Proofs.Scoping.Term

/-!
# Pathwise.Proofs.Typing.Signature

Sorts of terms. A function has ranks: the sorts of its arguments and of its result,
over the parameters of its declaration. The ranks of the language are listed
(`Rank.theory`); those of declared functions are read from the commands that
declare them (`Sexp.ranks`). `HasSort` says which terms have which sorts:

1. literals have the sort of their kind,
2. an application has the result sort of a rank that its arguments fit,
3. a function whose arguments do not tell its parameters, such as the null of all
   arrays, is used only with its result sort, `(as f sort)`,
4. a sort with a name of its own is the sort that it is defined as.
-/

namespace Pathwise

/-! ## sorts -/

def boolSort : Sexp := .atom "Bool"
def intSort : Sexp := .atom "Int"
def realSort : Sexp := .atom "Real"

/-- Sort of string literals. -/
def textSort : Sexp := .atom "String"

/-- Sort of the sequences of elements of a sort. -/
def seqSort (element : Sexp) : Sexp := .app "Seq" [element]

namespace Sexp

mutual

/-- Put sorts in place of names. -/
@[simp]
def instantiate (θ : String → Sexp) : Sexp → Sexp
  | .atom x => θ x
  | .quoted t => .quoted t
  | .list items => .list (instantiateList θ items)

/-- Put sorts in place of names in all terms of a list. -/
@[simp]
def instantiateList (θ : String → Sexp) : List Sexp → List Sexp
  | [] => []
  | e :: es => e.instantiate θ :: instantiateList θ es

end

mutual

@[simp]
theorem instantiate_atom : (e : Sexp) → e.instantiate .atom = e
  | .atom _ => rfl
  | .quoted _ => rfl
  | .list items => congrArg Sexp.list (instantiateList_atom items)

theorem instantiateList_atom : (es : List Sexp) → instantiateList .atom es = es
  | [] => rfl
  | e :: es => by rw [instantiateList, instantiate_atom e, instantiateList_atom es]

end

end Sexp

/-! ## ranks -/

/-- The sorts of a function's arguments and of its result, for any sorts in place of the
parameters. -/
structure Rank where
  name : String
  parameters : List String
  arguments : List Sexp
  result : Sexp
deriving DecidableEq

namespace Rank

/-- The rank gives a function these sorts, with some sorts in place of its parameters. -/
def Gives (r : Rank) (f : String) (arguments : List Sexp) (result : Sexp) : Prop :=
  r.name = f ∧ ∃ θ : String → Sexp, (∀ x, x ∉ r.parameters → θ x = .atom x) ∧
    r.arguments.map (·.instantiate θ) = arguments ∧ r.result.instantiate θ = result

/-- The sorts of the arguments tell the sorts in place of the parameters. -/
def Determined (r : Rank) : Prop := ∀ x ∈ r.parameters, x ∈ Sexp.atomsList r.arguments

instance (r : Rank) : Decidable r.Determined :=
  inferInstanceAs (Decidable (∀ x ∈ r.parameters, x ∈ Sexp.atomsList r.arguments))

/-- A rank of one sort of numbers. -/
def arithmetic (number : Sexp) : List Rank :=
  ⟨"-", [], [number], number⟩ ::
    (["+", "-", "*"].map fun f => ⟨f, [], [number, number], number⟩) ++
    ["<", "<=", ">", ">="].map fun f => ⟨f, [], [number, number], boolSort⟩

/-- The functions of the language. -/
def theory : List Rank :=
  let a := Sexp.atom "A"
  [ ⟨"true", [], [], boolSort⟩,
    ⟨"false", [], [], boolSort⟩,
    ⟨"not", [], [boolSort], boolSort⟩,
    ⟨"and", [], [boolSort, boolSort], boolSort⟩,
    ⟨"=", ["A"], [a, a], boolSort⟩,
    ⟨"ite", ["A"], [boolSort, a, a], a⟩,
    ⟨"to_real", [], [intSort], realSort⟩,
    ⟨"to_int", [], [realSort], intSort⟩,
    ⟨"str.len", [], [textSort], intSort⟩,
    ⟨"seq.unit", ["A"], [a], seqSort a⟩,
    ⟨"seq.len", ["A"], [seqSort a], intSort⟩,
    ⟨"seq.nth", ["A"], [seqSort a, intSort], a⟩,
    ⟨"seq.update", ["A"], [seqSort a, intSort, seqSort a], seqSort a⟩ ] ++
  arithmetic intSort ++ arithmetic realSort

end Rank

/-! ## reading declarations -/

/-- The ranks of a constructor of a sort, and those of its accessors. The name of an accessor stands
for one position; a constructor that has it twice gives no sorts. -/
def Constructor.ranks (parameters : List String) (sort : Sexp) (c : Constructor) : List Rank :=
  if (c.accessors.map (·.name)).Nodup then
    ⟨c.name, parameters, c.accessors.map (·.sort), sort⟩ ::
      c.accessors.map fun a => ⟨a.name, parameters, [sort], a.sort⟩
  else []

namespace Sexp

/-- An accessor in the declaration of a constructor. -/
def accessor? : Sexp → Option Accessor
  | .list [.atom name, sort] => some { name, sort }
  | _ => none

/-- A constructor in the declaration of a datatype. -/
def constructor? : Sexp → Option Constructor
  | .atom name => some { name, accessors := [] }
  | .list (.atom name :: accessors) =>
    (accessors.mapM accessor?).map fun accessors => { name, accessors }
  | _ => none

/-- The ranks that a datatype brings with it. -/
def datatypeRanks (parameters : List String) : Sexp → List Rank
  | .list (.atom name :: constructors) =>
    let sort := if parameters = [] then .atom name else app name (parameters.map .atom)
    (constructors.filterMap constructor?).flatMap (Constructor.ranks parameters sort)
  | _ => []

/-- The ranks of the functions that a command introduces. -/
def ranks : Sexp → List Rank
  | .list [.atom "declare-const", .atom name, sort] => [⟨name, [], [], sort⟩]
  | .list [.atom "declare-fun", .atom name, .list arguments, result] =>
    [⟨name, [], arguments, result⟩]
  | .list [.atom "declare-datatypes", .list parameters, .list bodies] =>
    bodies.flatMap (datatypeRanks (parameters.filterMap atom?))
  | _ => []

@[simp]
theorem accessor?_sexp (a : Accessor) : a.sexp.accessor? = some a := rfl

theorem mapM_accessor?_sexp (accessors : List Accessor) :
    (accessors.map Accessor.sexp).mapM accessor? = some accessors := by
  induction accessors with
  | nil => rfl
  | cons a accessors ih => simp [List.mapM_cons, ih]

/-- Constructors are read back. -/
@[simp]
theorem constructor?_sexp (c : Constructor) : c.sexp.constructor? = some c := by
  obtain ⟨name, accessors⟩ := c
  unfold Constructor.sexp
  split
  · next hnil =>
      obtain rfl : accessors = [] := hnil
      rfl
  · rw [app, constructor?, mapM_accessor?_sexp]
    rfl

end Sexp

/-- What terms can use beyond the language: declared functions, and names for sorts. -/
structure Signature where
  ranks : List Rank
  aliases : List (String × Sexp)

namespace Signature

/-- The signature that commands introduce. -/
def ofLines (lines : List Sexp) : Signature :=
  { ranks := lines.flatMap Sexp.ranks, aliases := lines.flatMap Sexp.sortDefinitions }

/-- A signature has all that another one has. -/
structure Includes (Γ Δ : Signature) : Prop where
  ranks : Δ.ranks ⊆ Γ.ranks
  aliases : Δ.aliases ⊆ Γ.aliases

section

variable {Γ : Signature}

theorem Includes.mem_ranks {lines : List Sexp} (hΓ : Γ.Includes (.ofLines lines))
    {r : Rank} (hr : r ∈ lines.flatMap Sexp.ranks) : r ∈ Rank.theory ++ Γ.ranks :=
  List.mem_append_right _ (hΓ.ranks hr)

theorem Includes.refl (Γ : Signature) : Γ.Includes Γ := ⟨List.Subset.refl _, List.Subset.refl _⟩

theorem Includes.trans {Δ Θ : Signature} (h : Γ.Includes Δ) (h' : Δ.Includes Θ) : Γ.Includes Θ :=
  ⟨List.Subset.trans h'.ranks h.ranks, List.Subset.trans h'.aliases h.aliases⟩

theorem includes_ofLines {lines lines' : List Sexp} : (ofLines lines').Includes (ofLines lines) ↔
    lines.flatMap Sexp.ranks ⊆ lines'.flatMap Sexp.ranks ∧
      lines.flatMap Sexp.sortDefinitions ⊆ lines'.flatMap Sexp.sortDefinitions :=
  ⟨fun h => ⟨h.ranks, h.aliases⟩, fun h => ⟨h.1, h.2⟩⟩

/-- Lines are included one by one. -/
theorem includes_append {lines lines' : List Sexp} :
    Γ.Includes (.ofLines (lines ++ lines')) ↔
      Γ.Includes (.ofLines lines) ∧ Γ.Includes (.ofLines lines') := by
  constructor
  · rintro ⟨hranks, haliases⟩
    simp only [ofLines, List.flatMap_append, List.append_subset] at hranks haliases
    exact ⟨⟨hranks.1, haliases.1⟩, ⟨hranks.2, haliases.2⟩⟩
  · rintro ⟨h, h'⟩
    refine ⟨?_, ?_⟩ <;> simp only [ofLines, List.flatMap_append, List.append_subset]
    · exact ⟨h.ranks, h'.ranks⟩
    · exact ⟨h.aliases, h'.aliases⟩

end

/-- Expressions that stand for a function with given sorts. -/
inductive Names (Γ : Signature) : Sexp → List Sexp → Sexp → Prop where
  | plain {r : Rank} {f : String} {arguments : List Sexp} {result : Sexp}
      (hr : r ∈ Rank.theory ++ Γ.ranks) (hdetermined : r.Determined)
      (h : r.Gives f arguments result) : Names Γ (.atom f) arguments result
  | qualified {r : Rank} {f : String} {arguments : List Sexp} {result : Sexp}
      (hr : r ∈ Rank.theory ++ Γ.ranks) (h : r.Gives f arguments result) :
      Names Γ (.app "as" [.atom f, result]) arguments result

end Signature

/-! ## sorts of terms -/

/-- A decimal: digits, a point, and digits. -/
def IsDecimal (x : String) : Prop := ∃ whole fraction : List Char,
  whole ≠ [] ∧ fraction ≠ [] ∧ (∀ c ∈ whole ++ fraction, c.isDigit = true) ∧
    x.toList = whole ++ '.' :: fraction

namespace Number

theorem isDecimal_whole (n : Nat) : IsDecimal (toString n ++ ".0") := by
  refine ⟨Nat.toDigits 10 n, ['0'], by simp, by simp, fun c hc => ?_, by simp⟩
  cases List.mem_append.1 hc with
  | inl hc => exact Nat.isDigit_of_mem_toDigits (by decide) (by decide) hc
  | inr hc => rw [List.mem_singleton.1 hc]; decide

theorem isDecimal_withPoint (digits : Nat) {places : Nat} (h : 0 < places) :
    IsDecimal (withPoint digits places) := by
  -- zeros in front leave at least one digit on each side of the point
  obtain ⟨cs, hcs⟩ : ∃ cs, cs = List.replicate (places + 1 - (Nat.toDigits 10 digits).length) '0' ++
      Nat.toDigits 10 digits := ⟨_, rfl⟩
  have hlength : places + 1 ≤ cs.length := by
    rw [hcs, List.length_append, List.length_replicate]
    omega
  have hdigit : ∀ c ∈ cs, c.isDigit = true := by
    intro c hc
    rw [hcs, List.mem_append] at hc
    cases hc with
    | inl hc => rw [List.eq_of_mem_replicate hc]; decide
    | inr hc => exact Nat.isDigit_of_mem_toDigits (by decide) (by decide) hc
  refine ⟨cs.take (cs.length - places), cs.drop (cs.length - places), ?_, ?_, ?_, ?_⟩
  · exact List.ne_nil_of_length_pos (by rw [List.length_take]; omega)
  · exact List.ne_nil_of_length_pos (by rw [List.length_drop]; omega)
  · rwa [List.take_append_drop]
  · simp [withPoint, ← hcs]

/-- No integer reads back as a number with a fraction. -/
theorem candidate?_zero {m k : Nat} (h : m % Nat.pow 2 k ≠ 0) : candidate? m k 0 = none := by
  have hdivision : m / Nat.pow 2 k * Nat.pow 2 k + m % Nat.pow 2 k = m := Nat.div_add_mod' m _
  have hlt : m % Nat.pow 2 k < Nat.pow 2 k := Nat.mod_lt m (Nat.pow_pos (by decide))
  have hunder : 1 ≤ m - m / Nat.pow 2 k * Nat.pow 2 k := by omega
  have habove : 1 ≤ (m / Nat.pow 2 k + 1) * Nat.pow 2 k - m := by
    rw [Nat.add_mul, Nat.one_mul]
    omega
  have hfactor : 1 ≤ (if m = Nat.pow 2 52 ∧ k < 1074 then 2 else 1) := by split <;> decide
  have hscaled := Nat.mul_le_mul (Nat.mul_le_mul_left 2 hunder) hfactor
  -- both distances are more than half a unit
  have hfar : ∀ distance, 1 < distance →
      (if m % 2 = 0 then decide (distance ≤ 1) else decide (distance < 1)) = false := by
    intro distance hdistance
    split <;> simp <;> omega
  unfold candidate?
  simp only [show Nat.pow 10 0 = 1 from rfl, Nat.mul_one]
  rw [hfar _ hscaled, hfar _ (by omega)]
  rfl

theorem isDecimal_shortestFrom (m k fuel : Nat) {places : Nat} (h : 0 < places) :
    IsDecimal (shortestFrom m k fuel places) := by
  fun_induction shortestFrom m k fuel places with
  | case1 places => exact isDecimal_withPoint _ h
  | case2 fuel places digits _ => exact isDecimal_withPoint _ h
  | case3 fuel places _ ih => exact ih (Nat.succ_pos places)

/-- Magnitudes are decimals. -/
theorem isDecimal_magnitudeText (m : Nat) (e : Int) : IsDecimal (Double.magnitudeText m e) := by
  unfold Double.magnitudeText
  split
  · exact isDecimal_whole _
  · next he =>
      dsimp only
      split
      · exact isDecimal_whole _
      · next hfraction =>
          obtain ⟨k, hk⟩ : ∃ k, (-e).toNat = k + 1 := ⟨(-e).toNat - 1, by omega⟩
          rw [hk] at hfraction ⊢
          rw [shortestFrom, candidate?_zero hfraction]
          exact isDecimal_shortestFrom m (k + 1) k (by decide)

end Number

/-- A term has a sort under a signature. -/
inductive HasSort (Γ : Signature) : Sexp → Sexp → Prop where
  | numeral (n : Nat) : HasSort Γ (.nat n) intSort
  | decimal {x : String} (hx : IsDecimal x) : HasSort Γ (.atom x) realSort
  | text (t : String) : HasSort Γ (.quoted t) textSort
  | constant {c sort : Sexp} (h : Γ.Names c [] sort) : HasSort Γ c sort
  | app {f sort : Sexp} {args sorts : List Sexp} (h : Γ.Names f sorts sort) (hne : args ≠ [])
      (hlength : args.length = sorts.length) (hargs : ∀ q ∈ args.zip sorts, HasSort Γ q.1 q.2) :
      HasSort Γ (.list (f :: args)) sort
  | alias {e sort : Sexp} {name : String} (hname : (name, sort) ∈ Γ.aliases)
      (h : HasSort Γ e (.atom name)) : HasSort Γ e sort

/-- The sorts that a rank with one parameter gives, at a sort. -/
theorem Rank.gives_at {f x : String} {arguments : List Sexp} {result : Sexp} (sort : Sexp) :
    (⟨f, [x], arguments, result⟩ : Rank).Gives f
      (arguments.map (·.instantiate (Function.update .atom x sort)))
      (result.instantiate (Function.update .atom x sort)) :=
  ⟨rfl, _, fun y hy => Function.update_of_ne (by simpa using hy) .., rfl, rfl⟩

variable {Γ : Signature}

namespace Signature.Names

variable {f : String} {arguments : List Sexp} {result : Sexp}

/-- A function without parameters. -/
theorem of_mem (h : ⟨f, [], arguments, result⟩ ∈ Rank.theory ++ Γ.ranks) :
    Γ.Names (.atom f) arguments result :=
  .plain h (by simp [Rank.Determined]) ⟨rfl, .atom, fun _ _ => rfl, by simp, by simp⟩

/-- A function with one parameter, at a sort. -/
theorem at_sort {x : String} (h : ⟨f, [x], arguments, result⟩ ∈ Rank.theory ++ Γ.ranks)
    (hdetermined : x ∈ Sexp.atomsList arguments) (sort : Sexp) :
    Γ.Names (.atom f) (arguments.map (·.instantiate (Function.update .atom x sort)))
      (result.instantiate (Function.update .atom x sort)) :=
  .plain h (by simpa [Rank.Determined] using hdetermined) (Rank.gives_at sort)

/-- A function of the language with one parameter, at a sort. -/
theorem of_theory (arguments : List Sexp) (result sort : Sexp)
    (h : ⟨f, ["A"], arguments, result⟩ ∈ Rank.theory)
    (hdetermined : "A" ∈ Sexp.atomsList arguments) :
    Γ.Names (.atom f) (arguments.map (·.instantiate (Function.update .atom "A" sort)))
      (result.instantiate (Function.update .atom "A" sort)) :=
  at_sort (List.mem_append_left _ h) hdetermined sort

end Signature.Names

namespace HasSort

variable {a b c f σ τ ρ sort : Sexp}

theorem app₁ (h : Γ.Names f [σ] sort) (ha : HasSort Γ a σ) : HasSort Γ (.list [f, a]) sort :=
  .app h (by simp) rfl (by simpa using ha)

theorem app₂ (h : Γ.Names f [σ, τ] sort) (ha : HasSort Γ a σ) (hb : HasSort Γ b τ) :
    HasSort Γ (.list [f, a, b]) sort :=
  .app h (by simp) rfl (by simpa using ⟨ha, hb⟩)

theorem app₃ (h : Γ.Names f [σ, τ, ρ] sort) (ha : HasSort Γ a σ) (hb : HasSort Γ b τ)
    (hc : HasSort Γ c ρ) : HasSort Γ (.list [f, a, b, c]) sort :=
  .app h (by simp) rfl (by simpa using ⟨ha, hb, hc⟩)

/-! ## terms of the language -/

theorem truth (b : Bool) : HasSort Γ (.atom (toString b)) boolSort := by
  cases b <;> exact .constant (.of_mem (List.mem_append_left _ (by decide)))

theorem not (ha : HasSort Γ a boolSort) : HasSort Γ a.not boolSort :=
  app₁ (.of_mem (List.mem_append_left _ (by decide))) ha

theorem and (ha : HasSort Γ a boolSort) (hb : HasSort Γ b boolSort) :
    HasSort Γ (.and a b) boolSort :=
  app₂ (.of_mem (List.mem_append_left _ (by decide))) ha hb

theorem eq (ha : HasSort Γ a σ) (hb : HasSort Γ b σ) : HasSort Γ (.eq a b) boolSort := by
  have hf := Signature.Names.of_theory (Γ := Γ) (f := "=") [.atom "A", .atom "A"] boolSort σ
    (by decide) (by decide)
  exact app₂ (by simpa [boolSort] using hf) ha hb

theorem ite (hc : HasSort Γ c boolSort) (ha : HasSort Γ a σ) (hb : HasSort Γ b σ) :
    HasSort Γ (.ite c a b) σ := by
  have hf := Signature.Names.of_theory (Γ := Γ) (f := "ite") [boolSort, .atom "A", .atom "A"]
    (.atom "A") σ (by decide) (by decide)
  exact app₃ (by simpa [boolSort] using hf) hc ha hb

theorem int (i : Int) : HasSort Γ (.int i) intSort := by
  unfold Sexp.int
  split
  · exact app₁ (.of_mem (List.mem_append_left _ (by decide))) (.numeral _)
  · exact .numeral _

/-- Reals have their sort. -/
theorem real (negative : Bool) (m : Nat) (e : Int) : HasSort Γ (.real negative m e) realSort := by
  have htext : HasSort Γ (.atom (Number.Double.magnitudeText m e)) realSort :=
    .decimal (Number.isDecimal_magnitudeText m e)
  unfold Sexp.real
  dsimp only
  split
  · exact app₁ (.of_mem (List.mem_append_left _ (by decide))) htext
  · exact htext

/-- Sorts of numbers. -/
def IsNumber (σ : Sexp) : Prop := σ = intSort ∨ σ = realSort

theorem comparison (hσ : IsNumber σ) (op : Comparison) (ha : HasSort Γ a σ)
    (hb : HasSort Γ b σ) : HasSort Γ (.comparison op a b) boolSort := by
  obtain rfl | rfl := hσ
  all_goals
    cases op with
    | eq => exact .eq ha hb
    | ne => exact .not (.eq ha hb)
    | _ => exact app₂ (.of_mem (List.mem_append_left _ (by decide))) ha hb

theorem arithmetic (hσ : IsNumber σ) (op : BinaryOp) (ha : HasSort Γ a σ) (hb : HasSort Γ b σ) :
    HasSort Γ (.arithmetic op a b) σ := by
  obtain rfl | rfl := hσ
  all_goals
    cases op <;> exact app₂ (.of_mem (List.mem_append_left _ (by decide))) ha hb

/-! ## sequences -/

theorem seqUnit (ha : HasSort Γ a σ) : HasSort Γ (.app "seq.unit" [a]) (seqSort σ) := by
  have hf :=
    Signature.Names.of_theory (Γ := Γ) (f := "seq.unit") [.atom "A"] (seqSort (.atom "A")) σ
    (by decide) (by decide)
  exact app₁ (by simpa [seqSort, Sexp.app] using hf) ha

theorem seqLen (ha : HasSort Γ a (seqSort σ)) : HasSort Γ (.app "seq.len" [a]) intSort := by
  have hf := Signature.Names.of_theory (Γ := Γ) (f := "seq.len") [seqSort (.atom "A")] intSort σ
    (by decide) (by decide)
  exact app₁ (by simpa [seqSort, Sexp.app, intSort] using hf) ha

theorem seqNth (ha : HasSort Γ a (seqSort σ)) (hb : HasSort Γ b intSort) :
    HasSort Γ (.app "seq.nth" [a, b]) σ := by
  have hf := Signature.Names.of_theory (Γ := Γ) (f := "seq.nth") [seqSort (.atom "A"), intSort]
    (.atom "A") σ (by decide) (by decide)
  exact app₂ (by simpa [seqSort, Sexp.app, intSort] using hf) ha hb

theorem seqUpdate (ha : HasSort Γ a (seqSort σ)) (hb : HasSort Γ b intSort)
    (hc : HasSort Γ c (seqSort σ)) : HasSort Γ (.app "seq.update" [a, b, c]) (seqSort σ) := by
  have hf := Signature.Names.of_theory (Γ := Γ) (f := "seq.update")
    [seqSort (.atom "A"), intSort, seqSort (.atom "A")] (seqSort (.atom "A")) σ
    (by decide) (by decide)
  exact app₃ (by simpa [seqSort, Sexp.app, intSort] using hf) ha hb hc

end HasSort

end Pathwise
