import Pathwise.Proofs.Freshness
import Pathwise.Proofs.Scoping.Path
import Pathwise.Proofs.TypeSymbol

/-!
# Pathwise.Proofs.Overload

When overloads share a symbol. The symbol of a method ends with the parts of its
parameter types, one type behind the other, and nothing shows where one ends and
the next begins. Overloads have the same symbol exactly if these parts are the same
(`MethodRef.symbol_eq_iff`); `F(Demo.Box<Int32>, Bool)` and `F(Demo.Box<Int32,Bool>)`
do, and a run that calls both takes their constants for each other
(`Sample.Overloads.shared_constant`).

If the parts of each parameter can be read back, so can the list of parameters
(`TypeRef.partsAll_inj`), and the constants of overloads differ
(`MethodRef.overloads_apart`).
-/

namespace Pathwise

/-! ## symbols with parameters -/

namespace Text

/-- A character that is in no pair stays, and no pair reaches over it. -/
theorem replacePair_append_cons {a b c : Char} (ha : c ≠ a) (hb : c ≠ b)
    (out cs rest : List Char) : replacePair a b out (cs ++ c :: rest) =
      replacePair a b out cs ++ c :: replacePair a b out rest := by
  fun_induction replacePair a b out cs with
  | case1 x y cs h ih => simp only [List.cons_append, replacePair, if_pos h, ih, List.append_assoc]
  | case2 x y cs h ih =>
      simp only [List.cons_append] at ih ⊢
      rw [replacePair, if_neg h, ih]
  | case3 cs h =>
      -- at most one character stands before
      cases cs with
      | nil => exact replacePair_cons_of_ne ha out rest
      | cons x cs =>
          cases cs with
          | nil =>
              rw [List.singleton_append, replacePair, if_neg fun h => hb h.2,
                replacePair_cons_of_ne ha]
              rfl
          | cons y cs => exact absurd rfl (h x y cs)

theorem symbolChars_append_underscore (cs rest : List Char) :
    symbolChars (cs ++ '_' :: rest) = symbolChars cs ++ '_' :: symbolChars rest := by
  unfold symbolChars
  dsimp only
  rw [replacePair_append_cons (by decide) (by decide), List.flatMap_append, List.flatMap_cons,
    show spellBracket '_' = ['_'] from rfl, List.singleton_append,
    replacePair_append_cons (by decide) (by decide), List.filter_append,
    List.filter_cons_of_pos (by decide)]

end Text

namespace TypeRef

/-- The parts of parameters, each behind `_`. -/
theorem symbolChars_parameters (cs : List Char) (ts : List TypeRef)
    (h : ∀ t ∈ ts, t.WellNamed) :
    Text.symbolChars (cs ++ (String.join (ts.map fun t => "_" ++ t.text)).toList) =
      Text.symbolChars cs ++ Text.underscored (partsAll ts) := by
  induction ts generalizing cs with
  | nil => simp [partsAll, Text.underscored]
  | cons t ts ih =>
      rw [List.forall_mem_cons] at h
      have htext : (String.join ((t :: ts).map fun t => "_" ++ t.text)).toList =
          '_' :: (t.text.toList ++ (String.join (ts.map fun t => "_" ++ t.text)).toList) := by
        simp
      have hrest := ih [] h.2
      rw [List.nil_append, show Text.symbolChars [] = [] from rfl, List.nil_append] at hrest
      rw [htext, Text.symbolChars_append_underscore, symbolChars_text t h.1, hrest, partsAll,
        Text.underscored_append]

theorem underscore_notMem_partsAll {ts : List TypeRef} (h : ∀ t ∈ ts, t.WellNamed) :
    ∀ w ∈ partsAll ts, '_' ∉ w.toList := by
  induction ts with
  | nil => simp [partsAll]
  | cons t ts ih =>
      rw [List.forall_mem_cons] at h
      rw [partsAll, List.forall_mem_append]
      exact ⟨underscore_notMem_parts t h.1 (by intro b; cases b <;> decide), ih h.2⟩

/-! ## reading parameters back -/

variable {arity : String → String → Nat}

/-- A list of types does not begin with brackets. -/
theorem head?_partsAll_ne {ts : List TypeRef} (h : ∀ t ∈ ts, t.Legible arity) :
    (partsAll ts).head? ≠ some "Array" := by
  cases ts with
  | nil => simp [partsAll]
  | cons t ts =>
      have ht := h t List.mem_cons_self
      rw [partsAll, parts_eq ht.delimited]
      simpa using firstPart_ne_array isSpelling_name ht

/-- Types whose parts can be read back can be told from their parts, one behind the other. -/
theorem partsAll_inj {ts us : List TypeRef} (ht : ∀ t ∈ ts, t.Legible arity)
    (hu : ∀ u ∈ us, u.Legible arity) (h : partsAll ts = partsAll us) : ts = us := by
  have hne : ∀ (t : TypeRef) (ts : List TypeRef), t.Legible arity → partsAll (t :: ts) ≠ [] := by
    intro t ts ht
    rw [partsAll, parts_eq ht.delimited]
    simp
  induction ts generalizing us with
  | nil =>
      cases us with
      | nil => rfl
      | cons u us => exact absurd h.symm (hne u us (hu u List.mem_cons_self))
  | cons t ts ih =>
      cases us with
      | nil => exact absurd h (hne t ts (ht t List.mem_cons_self))
      | cons u us =>
          rw [List.forall_mem_cons] at ht hu
          -- the next parameter does not go on with brackets, so the first one ends where it does
          obtain ⟨rfl, htail⟩ := readsBack arity t _ isSpelling_name u ht.1 hu.1 _ _
            (head?_partsAll_ne ht.2) (head?_partsAll_ne hu.2) h
          rw [ih ht.2 hu.2 htail]

end TypeRef

/-! ## overloads -/

namespace MethodRef

variable {m n : MethodRef}

theorem toList_symbol (hm : ∀ t ∈ m.parameters, t.WellNamed) : m.symbol.toList =
    Text.symbolChars (m.declaring.text ++ "." ++ m.name).toList ++
      Text.underscored (TypeRef.partsAll m.parameters) := by
  rw [symbol, Text.symbol, String.toList_ofList, String.toList_append,
    TypeRef.symbolChars_parameters _ _ hm]

/-- **Symbols of overloads are parts**: they are the same exactly if the parts of the parameters
are. -/
theorem symbol_eq_iff (hdeclaring : m.declaring = n.declaring) (hname : m.name = n.name)
    (hm : ∀ t ∈ m.parameters, t.WellNamed) (hn : ∀ t ∈ n.parameters, t.WellNamed) :
    m.symbol = n.symbol ↔ TypeRef.partsAll m.parameters = TypeRef.partsAll n.parameters := by
  rw [← String.toList_inj, toList_symbol hm, toList_symbol hn, hdeclaring, hname,
    List.append_cancel_left_eq]
  constructor
  · exact Text.underscored_inj (TypeRef.underscore_notMem_partsAll hm)
      (TypeRef.underscore_notMem_partsAll hn)
  · exact congrArg Text.underscored

/-- **When overloads are told apart**: overloads whose parameters are well-named have the same
symbol exactly if the parts of their parameters are the same. If the parameters are delimited and
differ, the symbols differ, and so do the constants of all local slots at any two sites of the
overloads. -/
theorem overloads_apart (hdeclaring : m.declaring = n.declaring) (hname : m.name = n.name)
    (hm : ∀ t ∈ m.parameters, t.WellNamed) (hn : ∀ t ∈ n.parameters, t.WellNamed) :
    (m.symbol = n.symbol ↔ TypeRef.partsAll m.parameters = TypeRef.partsAll n.parameters) ∧
    ∀ arity, (∀ t ∈ m.parameters, t.Delimited arity) → (∀ t ∈ n.parameters, t.Delimited arity) →
      m.parameters ≠ n.parameters → m.symbol ≠ n.symbol ∧
        ∀ (s s' : Site) (f f' : Form) (x x' : Variable), s.method = m → s'.method = n →
          x.slot.isLocal → x'.slot.isLocal → m.variableSymbol x ∈ f.locals →
          n.variableSymbol x' ∈ f'.locals →
          (Renaming.of f s).symbol (m.variableSymbol x) ≠
            (Renaming.of f' s').symbol (n.variableSymbol x') := by
  refine ⟨symbol_eq_iff hdeclaring hname hm hn, fun arity hmd hnd hne => ?_⟩
  have hsymbol : m.symbol ≠ n.symbol := by
    intro h
    rw [symbol_eq_iff hdeclaring hname hm hn] at h
    exact hne (TypeRef.partsAll_inj (fun t ht => ⟨hm t ht, hmd t ht⟩)
      (fun t ht => ⟨hn t ht, hnd t ht⟩) h)
  refine ⟨hsymbol, ?_⟩
  rintro s s' f f' x x' rfl rfl hx hx' hf hf'
  have hsites : s ≠ s' := by
    rintro rfl
    exact hne rfl
  exact Renaming.symbol_ne hsites (Or.inr hsymbol) hx hx' hf hf'

end MethodRef

/-! ## a sample -/

namespace Sample.Overloads

/-- Boxes of one item, and boxes of two items. -/
def box (items : List TypeRef) : TypeRef := .named "Demo" "Box" items

/-- A box with one field. -/
def boxDef (items : List TypeRef) : TypeDef :=
  { type := box items, base := none, isValueType := false, fields := [⟨"count", .int32, false⟩] }

def work : TypeRef := .named "Demo" "Work" []

/-- Takes a box and a truth value. -/
def single : MethodRef := .static work "F" [box [.int32], .bool] .int32

/-- Takes a box of two items. -/
def pair : MethodRef := .static work "F" [box [.int32, .bool]] .int32

/-- Calls both. -/
def run : MethodRef := .static work "Run" [box [.int32], .bool, box [.int32, .bool]] .int32

/-- What a call returns. -/
def result : Variable := ⟨.stack 0, .int32⟩

/-- Returns a number. -/
def constantGraph (m : MethodRef) (n : Int) : MethodGraph :=
  { method := m
    blocks := [
      { index := 0
        instructions := [⟨0, .constant (.int n), some result, []⟩, ⟨1, .ret, none, [result]⟩]
        successors := [] }] }

/-- Call both overloads. -/
def runGraph : MethodGraph :=
  { method := run
    blocks := [
      { index := 0
        instructions := [
          ⟨0, .call single false, some result,
            [⟨.parameter 0, box [.int32]⟩, ⟨.parameter 1, .bool⟩]⟩,
          ⟨1, .call pair false, some ⟨.stack 1, .int32⟩, [⟨.parameter 2, box [.int32, .bool]⟩]⟩,
          ⟨2, .ret, none, [⟨.stack 1, .int32⟩]⟩]
        successors := [] }] }

/-- The boxes, the overloads, and the method that calls them. -/
def program : Program :=
  let types := [[.int32], [.int32, .bool], [.array .int32]].map boxDef
  let graphs := [constantGraph single 1, constantGraph pair 2, runGraph]
  graphs.foldl Program.addMethod (types.foldl Program.addType .empty)

/-- The engine that has resolved `run`. -/
def engine : Engine := ((Engine.new program {}).resolveMethod run [] []).2

theorem wellNamed_box {items : List TypeRef} (h : ∀ t ∈ items, t.WellNamed) :
    (box items).WellNamed :=
  ⟨rfl, rfl, TypeRef.wellNamedAll_iff.2 h⟩

theorem wellNamed_single : ∀ t ∈ single.parameters, t.WellNamed := by
  simp only [single, MethodRef.static, List.forall_mem_cons]
  exact ⟨wellNamed_box (by simp [TypeRef.WellNamed]), trivial, by simp⟩

theorem wellNamed_pair : ∀ t ∈ pair.parameters, t.WellNamed := by
  simp only [pair, MethodRef.static, List.forall_mem_cons]
  exact ⟨wellNamed_box (by simp [TypeRef.WellNamed]), by simp⟩

/-- The overloads have one symbol. A run that calls both declares one constant for two parameters,
and has one constant for both results: it is to be 1 and 2. -/
theorem shared_constant : single.declaring = pair.declaring ∧ single.name = pair.name ∧
    single.parameters ≠ pair.parameters ∧ (∀ t ∈ single.parameters, t.WellNamed) ∧
    (∀ t ∈ pair.parameters, t.WellNamed) ∧ single.symbol = pair.symbol ∧
    ∃ groups g, (engine.cover run .empty).1 = .ok groups ∧ g ∈ groups ∧
      ¬(Line.declared g.lines).Nodup ∧
      .assert (.eq (.atom "Demo.Work.F_Demo.Box_Of_Int32_Bool!s0!0_1") (.int 1)) ∈ g.lines ∧
      .assert (.eq (.atom "Demo.Work.F_Demo.Box_Of_Int32_Bool!s0!0_1") (.int 2)) ∈ g.lines := by
  have hgroup : (engine.renderGroups run .empty).1.map (fun groups =>
      groups.eraseDups[0]?.map fun g => decide (¬(Line.declared g.lines).Nodup ∧
        .assert (.eq (.atom "Demo.Work.F_Demo.Box_Of_Int32_Bool!s0!0_1") (.int 1)) ∈ g.lines ∧
        .assert (.eq (.atom "Demo.Work.F_Demo.Box_Of_Int32_Bool!s0!0_1") (.int 2)) ∈ g.lines)) =
      .ok (some true) := by
    decide +kernel
  have hfilled : engine.Filled := .of_isOk (.new program {}) (by decide)
  obtain ⟨groups, hrun, hfirst⟩ := map_eq_ok.1 hgroup
  obtain ⟨g, hg, hlines⟩ := Option.map_eq_some_iff.1 hfirst
  have hcover : (engine.cover run .empty).1 = .ok groups.eraseDups :=
    (Engine.cover_eq_ok_iff_eraseDups hfilled used_empty).2 ⟨groups, hrun, rfl⟩
  have hsymbol : single.symbol = pair.symbol :=
    (MethodRef.symbol_eq_iff (m := single) (n := pair) rfl rfl wellNamed_single
      wellNamed_pair).2 rfl
  exact ⟨rfl, rfl, by decide, wellNamed_single, wellNamed_pair, hsymbol, _, g, hcover,
    List.mem_of_getElem? hg, of_decide_eq_true hlines⟩

/-- Takes a box of an array. -/
def nested : MethodRef := .static work "F" [box [.array .int32]] .int32

theorem delimited_box {item : TypeRef} (h : item.Delimited fun _ _ => 1) :
    (box [item]).Delimited fun _ _ => 1 := ⟨by decide, rfl, h, trivial⟩

/-- The form of a method that returns a number has a constant for it. -/
theorem exists_form (m : MethodRef) (h : (Form.ofGraph (program.lookup none)
      (constantGraph m 1)).toOption.any
        (fun f => decide (m.variableSymbol result ∈ f.locals)) = true) :
    ∃ f : Form, m.variableSymbol result ∈ f.locals := by
  obtain ⟨f, -, hf⟩ := (Option.any_eq_true _ _).1 h
  exact ⟨f, of_decide_eq_true hf⟩

/-- Where every box has one item, the results of overloads have their own constants. -/
theorem nested_apart : single.declaring = nested.declaring ∧ single.name = nested.name ∧
    (∀ t ∈ single.parameters, t.WellNamed ∧ t.Delimited fun _ _ => 1) ∧
    (∀ t ∈ nested.parameters, t.WellNamed ∧ t.Delimited fun _ _ => 1) ∧
    single.parameters ≠ nested.parameters ∧ single.symbol ≠ nested.symbol ∧
    ∃ f f' : Form, single.variableSymbol result ∈ f.locals ∧
      nested.variableSymbol result ∈ f'.locals ∧
      (Renaming.of f ⟨single, 0, 1⟩).symbol (single.variableSymbol result) ≠
        (Renaming.of f' ⟨nested, 0, 1⟩).symbol (nested.variableSymbol result) := by
  have hnested : ∀ t ∈ nested.parameters, t.WellNamed := by
    simp only [nested, MethodRef.static, List.forall_mem_cons]
    exact ⟨wellNamed_box (by simp [TypeRef.WellNamed]), by simp⟩
  have hdelimited : ∀ t ∈ single.parameters, t.Delimited fun _ _ => 1 := by
    simp only [single, MethodRef.static, List.forall_mem_cons]
    exact ⟨delimited_box trivial, trivial, by simp⟩
  have hdelimited' : ∀ t ∈ nested.parameters, t.Delimited fun _ _ => 1 := by
    simp only [nested, MethodRef.static, List.forall_mem_cons]
    exact ⟨delimited_box ⟨rfl, trivial⟩, by simp⟩
  have hne : single.parameters ≠ nested.parameters := by decide
  obtain ⟨f, hf⟩ := exists_form single rfl
  obtain ⟨f', hf'⟩ := exists_form nested rfl
  obtain ⟨-, happart⟩ := MethodRef.overloads_apart (m := single) (n := nested) rfl rfl
    wellNamed_single hnested
  obtain ⟨hsymbol, hconstants⟩ := happart _ hdelimited hdelimited' hne
  exact ⟨rfl, rfl, fun t ht => ⟨wellNamed_single t ht, hdelimited t ht⟩,
    fun t ht => ⟨hnested t ht, hdelimited' t ht⟩, hne, hsymbol, f, f', hf, hf',
    hconstants ⟨single, 0, 1⟩ ⟨nested, 0, 1⟩ f f' result result rfl rfl rfl rfl hf hf'⟩

end Sample.Overloads

end Pathwise
