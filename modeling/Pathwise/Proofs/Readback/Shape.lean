import Pathwise.Proofs.Readback.Request

/-!
# Pathwise.Proofs.Readback.Shape

Values that a table reads have the shape of their type. `ConstantTable.Typed` says
which values a type has, given the sentences that are registered; every value that is
read is one of those (`readsTyped`), whatever text it is read from.

A term that is not of its type can be too short. `arrayAt` and its siblings read by
position and give nothing where a position lies outside of the list; `ReadsInBounds`
says that this never happens.
-/

namespace Pathwise

/-! ## shapes -/

theorem Sentence.shape_of_encode {exceptionBase : Option TypeRef} {p : Program} {type : TypeRef}
    {s : Sentence} (h : encode exceptionBase p type = .ok s) (ht : type.HasDatatype) :
    type = .string ∧ s.shape = .str ∨ type = .object ∧ s.shape = .object ∨
      s.shape = .exceptionBase ∨
      ∃ members isValueType, s.shape = .composite members isValueType := by
  obtain ⟨shape, hscalar, -⟩ | ⟨rfl, rfl⟩ | ⟨rfl, rfl⟩ | ⟨e, rfl, -⟩ |
    ⟨space, name, arguments, d, rfl, -, ⟨-, base, rfl⟩ | ⟨-, fields, isValueType, base, -, rfl⟩⟩ :=
    encode_cases h
  · obtain ⟨rfl, -⟩ | ⟨rfl, -⟩ | ⟨rfl, -⟩ := hscalar <;>
      simp [TypeRef.HasDatatype, TypeRef.IsReference] at ht
  · exact Or.inl ⟨rfl, rfl⟩
  · exact Or.inr (Or.inl ⟨rfl, rfl⟩)
  · exact absurd rfl (ht.2 e)
  · exact Or.inr (Or.inr (Or.inl rfl))
  · exact Or.inr (Or.inr (Or.inr ⟨fields, isValueType, rfl⟩))

theorem Sentence.length_accessors {s : Sentence} {c : Constructor} (h : s.constructor? = some c) :
    c.accessors.length = s.fieldAccessors.length + 2 := by
  obtain ⟨-, rfl⟩ := Option.ite_some_none_eq_some.1 h
  rfl

namespace ConstantTable

open Number (IsInt64)

variable {t : ConstantTable} {type element : TypeRef} {e : Sexp} {v : Value} {items : List Sexp}

/-! ## values of a type -/

/-- The values of a type. Objects have the fields that the registered sentence of their type gives
them, by name and in order. -/
inductive Typed (t : ConstantTable) : TypeRef → Value → Prop where
  | bool (b : Bool) : Typed t .bool (.bool b)
  | int {i : Int} (hi : IsInt64 i) : Typed t .int32 (.int i)
  | real (x : Number.Double) : Typed t .float64 (.real x)
  | arrayNull (element : TypeRef) : Typed t (.array element) (.null (.array element))
  | array {element : TypeRef} {pointer : Int} {elements : List Value} (hp : IsInt64 pointer)
      (helements : ∀ v ∈ elements, Typed t element v) :
      Typed t (.array element) (.array (.array element) pointer elements)
  | null {u : TypeRef} {s : Sentence} (hu : u.HasDatatype) (hs : t.sentences.find? u = some s) :
      Typed t u (.null u)
  | string {s : Sentence} {runtimeType : TypeRef} {pointer : Int}
      (hs : t.sentences.find? .string = some s) (hp : IsInt64 pointer) (text : String) :
      Typed t .string (.record .string runtimeType pointer [("value", .text text)])
  | object {s : Sentence} {runtimeType : TypeRef} {pointer : Int}
      (hs : t.sentences.find? .object = some s) (hp : IsInt64 pointer) :
      Typed t .object (.record .object runtimeType pointer [])
  | exceptionBase {u runtimeType : TypeRef} {s : Sentence} {pointer : Int}
      (hs : t.sentences.find? u = some s) (hshape : s.shape = .exceptionBase)
      (hp : IsInt64 pointer) : Typed t u (.record u runtimeType pointer [])
  | composite {u runtimeType : TypeRef} {s : Sentence} {members : List FieldAccessor}
      {isValueType : Bool} {pointer : Int} {fields : List (String × Value)}
      (hs : t.sentences.find? u = some s) (hshape : s.shape = .composite members isValueType)
      (hp : IsInt64 pointer) (hnames : fields.map (·.1) = members.map (·.field))
      (hfields : ∀ q ∈ members.zip fields, Typed t q.1.type q.2.2) :
      Typed t u (.record u runtimeType pointer fields)

/-- Every registered sentence encodes the type it is registered for, in some program. -/
def Encodings (t : ConstantTable) : Prop :=
  ∀ u s, t.sentences.find? u = some s → ∃ exceptionBase p, Sentence.encode exceptionBase p u = .ok s

/-- Whatever is read from a term has the type it is read at. -/
def ReadsTyped (t : ConstantTable) (e : Sexp) : Prop :=
  (∀ type v, t.readValue type e = .ok v → t.Typed type v) ∧
    ∀ element vs, t.readSequence element e = .ok vs → ∀ v ∈ vs, t.Typed element v

/-! ## reading -/

theorem isInt64_of_readInt {i : Int} (h : readInt type e = .ok i) : IsInt64 i := by
  unfold readInt at h
  split at h
  · exact (int64_eq_ok_iff.1 h).2
  · split at h
    · exact (int64_eq_ok_iff.1 h).2
    · contradiction
  · split at h
    · obtain ⟨_, _, h⟩ := Pathwise.bind_eq_ok.1 h
      exact (int64_eq_ok_iff.1 h).2
    · contradiction
  · contradiction

theorem readLeaf_typed (h : t.readLeaf type e = .ok v) : t.Typed type v := by
  unfold readLeaf at h
  split at h
  · split at h
    · obtain rfl := Except.ok.inj h
      exact .bool true
    · split at h
      · obtain rfl := Except.ok.inj h
        exact .bool false
      · contradiction
  · simp only [Pathwise.bind_eq_ok, pure_eq_ok] at h
    obtain ⟨i, hi, rfl⟩ := h
    exact .int (isInt64_of_readInt hi)
  · simp only [Pathwise.bind_eq_ok, pure_eq_ok] at h
    obtain ⟨x, -, rfl⟩ := h
    exact .real x
  · contradiction
  · contradiction
  · next hbool hint hreal harray hvoid =>
      split at h
      · contradiction
      · next s hs =>
          split at h
          · obtain rfl := Except.ok.inj h
            exact .null ⟨⟨hbool, hint, hreal⟩, harray⟩ hs
          · contradiction

theorem readParts_typed {parts : List Sexp} {vs : List Value} (hparts : ∀ e ∈ parts, t.ReadsTyped e)
    (h : t.readParts element parts = .ok vs) : ∀ v ∈ vs, t.Typed element v := by
  induction parts generalizing vs with
  | nil =>
      obtain rfl := Except.ok.inj h
      simp
  | cons part parts ih =>
      rw [List.forall_mem_cons] at hparts
      simp only [readParts, Pathwise.bind_eq_ok, pure_eq_ok] at h
      obtain ⟨front, hfront, back, hback, rfl⟩ := h
      exact List.forall_mem_append.2 ⟨hparts.1.2 element front hfront, ih hparts.2 hback⟩

theorem readSequence_typed {vs : List Value} (hitems : ∀ e ∈ items, t.ReadsTyped e)
    (h : t.readSequence element (.list items) = .ok vs) : ∀ v ∈ vs, t.Typed element v := by
  unfold readSequence at h
  split at h
  · next head rest heq =>
      obtain rfl := Sexp.list.inj heq
      rw [List.forall_mem_cons] at hitems
      dsimp only at h
      split at h
      · exact readParts_typed hitems.2 h
      · split at h
        · split at h
          · obtain rfl := Except.ok.inj h
            simp
          · contradiction
        · split at h
          · split at h
            · simp only [Pathwise.bind_eq_ok, pure_eq_ok] at h
              obtain ⟨v, hv, rfl⟩ := h
              rw [List.forall_mem_singleton] at hitems ⊢
              exact hitems.2.1 element v hv
            · contradiction
          · contradiction
  · contradiction

theorem readArray_typed (hitems : ∀ e ∈ items, t.ReadsTyped e)
    (h : t.readArray element items = .ok v) : t.Typed (.array element) v := by
  unfold readArray at h
  split at h
  · next head first rest =>
      split at h
      · obtain rfl := Except.ok.inj h
        exact .arrayNull element
      · split at h
        · next tag contents =>
            split at h
            · simp only [Pathwise.bind_eq_ok, pure_eq_ok] at h
              obtain ⟨pointer, hpointer, elements, helements, rfl⟩ := h
              have hcontents : t.ReadsTyped contents := hitems contents (by simp)
              exact .array (isInt64_of_readInt hpointer) (hcontents.2 element elements helements)
            · contradiction
        · contradiction
  · contradiction

/-- Fields are read one by one, under their names. -/
theorem readFields_typed {members : List FieldAccessor} {isValueType : Bool} {es : List Sexp}
    {fields : List (String × Value)} (hes : ∀ e ∈ es, t.ReadsTyped e)
    (hlength : es.length = members.length)
    (h : t.readFields type (.composite members isValueType) es = .ok fields) :
    fields.map (·.1) = members.map (·.field) ∧
      ∀ q ∈ members.zip fields, t.Typed q.1.type q.2.2 := by
  induction es generalizing members fields with
  | nil =>
      obtain rfl := List.length_eq_zero_iff.1 hlength.symm
      obtain rfl := Except.ok.inj h
      simp
  | cons e es ih =>
      cases members with
      | nil => contradiction
      | cons f members =>
          rw [List.forall_mem_cons] at hes
          simp only [readFields, Pathwise.bind_eq_ok, pure_eq_ok] at h
          obtain ⟨v, hv, rest, hrest, rfl⟩ := h
          obtain ⟨hnames, htyped⟩ := ih hes.2 (Nat.succ.inj hlength) hrest
          simp only [List.map_cons, hnames, List.zip_cons_cons, List.forall_mem_cons, true_and]
          exact ⟨hes.1.1 f.type v hv, htyped⟩

theorem readRecord_typed (ht : t.Encodings) {s : Sentence} (htype : type.HasDatatype)
    (hs : t.sentences.find? type = some s) (hitems : ∀ e ∈ items, t.ReadsTyped e)
    (h : t.readRecord type s items = .ok v) : t.Typed type v := by
  obtain ⟨exceptionBase, p, hencode⟩ := ht type s hs
  unfold readRecord at h
  split at h
  · next head pointer tag terms =>
      have hterms : ∀ e ∈ terms, t.ReadsTyped e := fun e he => hitems e (by simp [he])
      rw [Sentence.constructor?_of_encode hencode htype] at h
      dsimp only at h
      split at h
      · next harity =>
          simp only [Pathwise.bind_eq_ok, pure_eq_ok] at h
          obtain ⟨pointer, hpointer, fields, hfields, rfl⟩ := h
          have hp := isInt64_of_readInt hpointer
          have hlength : terms.length = s.fieldAccessors.length := by
            simpa [Constructor.object] using harity.2
          obtain ⟨rfl, hshape⟩ | ⟨rfl, hshape⟩ | hshape | ⟨members, isValueType, hshape⟩ :=
            Sentence.shape_of_encode hencode htype <;>
            rw [hshape] at hfields <;> simp only [Sentence.fieldAccessors, hshape] at hlength
          · obtain ⟨term, rfl⟩ := List.length_eq_one_iff.1 hlength
            cases term with
            | quoted text =>
                obtain rfl := Except.ok.inj hfields
                exact .string hs hp text
            | _ => contradiction
          · obtain rfl := List.length_eq_zero_iff.1 hlength
            obtain rfl := Except.ok.inj hfields
            exact .object hs hp
          · obtain rfl := List.length_eq_zero_iff.1 hlength
            obtain rfl := Except.ok.inj hfields
            exact .exceptionBase hs hshape hp
          · rw [List.length_map] at hlength
            obtain ⟨hnames, htyped⟩ := readFields_typed hterms hlength hfields
            exact .composite hs hshape hp hnames htyped
      · contradiction
  · contradiction

/-- A list is read as an array or an object where the type has those. -/
theorem readValue_list_cases (h : t.readValue type (.list items) = .ok v) :
    (∃ element, type = .array element ∧ t.readArray element items = .ok v) ∨
    (∃ s, type.HasDatatype ∧ t.sentences.find? type = some s ∧ t.readRecord type s items = .ok v) ∨
    t.readLeaf type (.list items) = .ok v := by
  unfold readValue at h
  split at h
  · next element => exact Or.inl ⟨element, rfl, h⟩
  case h_5 => exact Or.inr (Or.inr h)
  all_goals
    split at h
    · contradiction
    · next s hs =>
        exact Or.inr (Or.inl ⟨s, by simp [TypeRef.HasDatatype, TypeRef.IsReference], hs, h⟩)

/-- **Values have the type they are read at.** -/
theorem readsTyped (ht : t.Encodings) (e : Sexp) : t.ReadsTyped e := by
  induction e using Sexp.induction with
  | atom x => exact ⟨fun type v h => readLeaf_typed h, fun element vs h => nomatch h⟩
  | quoted text => exact ⟨fun type v h => readLeaf_typed h, fun element vs h => nomatch h⟩
  | list items ih =>
      refine ⟨fun type v h => ?_, fun element vs => readSequence_typed ih⟩
      obtain ⟨element, rfl, h⟩ | ⟨s, htype, hs, h⟩ | h := readValue_list_cases h
      · exact readArray_typed ih h
      · exact readRecord_typed ht htype hs ih h
      · exact readLeaf_typed h

/-! ## tables -/

/-- Only encodings are registered. -/
def Request.Encodes : Request → Prop
  | .register s => ∃ exceptionBase p u, Sentence.encode exceptionBase p u = .ok s
  | _ => True

/-- Tables that come about by registering encodings, declaring constants and binding them. -/
def Reached (t : ConstantTable) : Prop :=
  ∃ requests : List Request, (∀ q ∈ requests, q.Encodes) ∧ t = empty.performAll requests

theorem sentences_perform_bind (t : ConstantTable) (name text : String) :
    (t.perform (.bind name text)).sentences = t.sentences := by
  by_cases h : ∃ type v, t.Binds name text type v
  · obtain ⟨type, v, h⟩ := h
    rw [perform, binding_of_binds h]
  · obtain ⟨err, heq⟩ := binding_of_not_binds fun type v hb => h ⟨type, v, hb⟩
    rw [perform, heq]

theorem Encodings.perform (h : t.Encodings) {q : Request} (hq : q.Encodes) :
    (t.perform q).Encodings := by
  cases q with
  | register s =>
      obtain ⟨exceptionBase, p, u, hencode⟩ := hq
      intro w s' hw
      change (t.sentences.set s.type s).find? w = some s' at hw
      rw [Table.find?_set, Sentence.type_of_encode hencode] at hw
      split at hw
      · next heq =>
          obtain rfl := heq
          obtain rfl := Option.some.inj hw
          exact ⟨exceptionBase, p, hencode⟩
      · exact h w s' hw
  | declare name type => exact h
  | bind name text =>
      intro w s' hw
      rw [sentences_perform_bind] at hw
      exact h w s' hw

theorem Reached.encodings (h : t.Reached) : t.Encodings := by
  obtain ⟨requests, hrequests, rfl⟩ := h
  exact performAll_induction (fun q hq t ht => ht.perform (hrequests q hq))
    fun u s hs => by contradiction

/-! ## reading by position -/

/-- The items behind the first few, if there are so many. -/
def behind? (k : Nat) (items : List Sexp) : Option (List Sexp) :=
  if k ≤ items.length then some (items.drop k) else none

/-- Read a negated integer by position. -/
def intAt (type : TypeRef) (items : List Sexp) : Option (Except Error Int) :=
  let e := Sexp.list items
  if items.length = 2 ∧ e.head? = some "-" then do
    let inner ← items[1]?
    return match inner with
      | .atom a => int64 type e ((Number.readWord 128 a.toList).map fun w => (-w).toInt)
      | inner => do int64 type e (some (- (← readInt type inner)))
  else some (.error (.mismatch type e))

/-- Read a negated real or a quotient by position. -/
def realAt (type : TypeRef) (items : List Sexp) : Option (Except Error Number.Double) :=
  let e := Sexp.list items
  if items.length = 2 ∧ e.head? = some "-" then do
    let x ← items[1]?
    return do return (← readReal type x).neg
  else if items.length = 3 ∧ e.head? = some "/" then do
    let x ← items[1]?
    let y ← items[2]?
    return do return (← readReal type x).div (← readReal type y)
  else some (.error (.mismatch type e))

/-- Read an array by position. -/
def arrayAt (t : ConstantTable) (element : TypeRef) (items : List Sexp) :
    Option (Except Error Value) :=
  let e := Sexp.list items
  if e.head? = some "as" ∧ items[1]? = some (.atom SeqArray.null) then
    some (.ok (.null (.array element)))
  else if e.head? = some SeqArray.ctor ∧ items.length = 4 then do
    let first ← items[1]?
    let contents ← items[3]?
    return do
      let pointer ← readInt (.array element) first
      let elements ← t.readSequence element contents
      return .array (.array element) pointer elements
  else some (.error (.mismatch (.array element) e))

/-- Read a sequence by position. -/
def sequenceAt (t : ConstantTable) (element : TypeRef) (items : List Sexp) :
    Option (Except Error (List Value)) :=
  let e := Sexp.list items
  if e.head? = some "as" ∧ items[1]? = some (.atom "seq.empty") then some (.ok [])
  else if e.head? = some "seq.unit" ∧ items.length = 2 then do
    let x ← items[1]?
    return do return [← t.readValue element x]
  else if e.head? = some "seq.++" then do
    let parts ← behind? 1 items
    return t.readParts element parts
  else some (.error (.mismatch element e))

/-- Read the fields of an object by position: the text of a `String` is the first one. -/
def fieldsAt (t : ConstantTable) (type : TypeRef) (shape : Shape) (terms : List Sexp) :
    Option (Except Error (List (String × Value))) :=
  match shape with
  | .str => do
    let term ← terms[0]?
    return match term with
      | .quoted text => .ok [("value", .text text)]
      | other => .error (.mismatch type other)
  | .composite members _ =>
    some ((members.zip terms).mapM fun q => do return (q.1.field, ← t.readValue q.1.type q.2))
  | _ => some (.ok [])

/-- Read an object by position. -/
def recordAt (t : ConstantTable) (type : TypeRef) (s : Sentence) (items : List Sexp) :
    Option (Except Error Value) :=
  let e := Sexp.list items
  match s.constructor? with
  | none => some (.error (.mismatch type e))
  | some c =>
    if e.head? = some c.name ∧ items.length = c.accessors.length + 1 then do
      let pointer ← items[1]?
      let tag ← items[2]?
      let terms ← behind? 3 items
      let fields ← t.fieldsAt type s.shape terms
      return do
        let pointer ← readInt type pointer
        let fields ← fields
        return .record type (t.runtimeType type tag) pointer fields
    else some (.error (.mismatch type e))

/-- No position outside of a list is read. -/
structure ReadsInBounds (t : ConstantTable) : Prop where
  int : ∀ type items, intAt type items = some (readInt type (.list items))
  real : ∀ type items, realAt type items = some (readReal type (.list items))
  array : ∀ element items, t.arrayAt element items = some (t.readArray element items)
  sequence : ∀ element items,
    t.sequenceAt element items = some (t.readSequence element (.list items))
  record : ∀ type s items, t.recordAt type s items = some (t.readRecord type s items)

theorem intAt_eq (type : TypeRef) (items : List Sexp) :
    intAt type items = some (readInt type (.list items)) := by
  unfold intAt
  dsimp only
  split
  · next h =>
      obtain ⟨hlength, hhead⟩ := h
      obtain ⟨first, inner, rfl⟩ := List.length_eq_two.1 hlength
      cases first with
      | atom op =>
          obtain rfl := Option.some.inj hhead
          cases inner <;> rfl
      | _ => contradiction
  · next h =>
      unfold readInt
      split
      · contradiction
      · next op a heq =>
          obtain rfl := Sexp.list.inj heq
          have hop : op ≠ "-" := fun hop => h ⟨rfl, congrArg some hop⟩
          dsimp only
          rw [if_neg hop]
      · next op inner _ heq =>
          obtain rfl := Sexp.list.inj heq
          have hop : op ≠ "-" := fun hop => h ⟨rfl, congrArg some hop⟩
          dsimp only
          rw [if_neg hop]
      · rfl

theorem realAt_eq (type : TypeRef) (items : List Sexp) :
    realAt type items = some (readReal type (.list items)) := by
  unfold realAt
  dsimp only
  split
  · next h =>
      obtain ⟨hlength, hhead⟩ := h
      obtain ⟨first, x, rfl⟩ := List.length_eq_two.1 hlength
      cases first with
      | atom op =>
          obtain rfl := Option.some.inj hhead
          rfl
      | _ => contradiction
  · next hneg =>
      split
      · next h =>
          obtain ⟨hlength, hhead⟩ := h
          obtain ⟨first, x, y, rfl⟩ := List.length_eq_three.1 hlength
          cases first with
          | atom op =>
              obtain rfl := Option.some.inj hhead
              rfl
          | _ => contradiction
      · next hdiv =>
          unfold readReal
          split
          · contradiction
          · next op x heq =>
              obtain rfl := Sexp.list.inj heq
              rw [if_neg fun hop => hneg ⟨rfl, congrArg some hop⟩]
          · next op x y heq =>
              obtain rfl := Sexp.list.inj heq
              rw [if_neg fun hop => hdiv ⟨rfl, congrArg some hop⟩]
          · rfl

theorem arrayAt_eq (t : ConstantTable) (element : TypeRef) (items : List Sexp) :
    t.arrayAt element items = some (t.readArray element items) := by
  unfold arrayAt readArray
  obtain _ | ⟨_ | _ | _, _ | ⟨first, rest⟩⟩ := items <;> try rfl
  · next head => simp
  · next head =>
      dsimp only [Sexp.head?, List.getElem?_cons_succ, List.getElem?_cons_zero]
      simp only [Option.some.injEq, apply_ite some]
      refine if_congr Iff.rfl rfl ?_
      obtain _ | ⟨tag, _ | ⟨contents, _ | ⟨further, rest⟩⟩⟩ := rest
      · simp
      · simp
      · simp [apply_ite some]
      · simp

theorem sequenceAt_eq (t : ConstantTable) (element : TypeRef) (items : List Sexp) :
    t.sequenceAt element items = some (t.readSequence element (.list items)) := by
  unfold sequenceAt readSequence
  obtain _ | ⟨_ | _ | _, rest⟩ := items <;> try rfl
  next head =>
    dsimp only [Sexp.head?]
    simp only [Option.some.injEq, apply_ite some]
    by_cases hconcat : head = "seq.++"
    · subst hconcat
      simp [behind?]
    by_cases has : head = "as"
    · subst has
      simp [List.head?_eq_getElem?]
    by_cases hunit : head = "seq.unit"
    · subst hunit
      obtain _ | ⟨x, _ | ⟨further, rest⟩⟩ := rest <;> simp
    simp [hconcat, has, hunit]

theorem readFields_eq_mapM (t : ConstantTable) (type : TypeRef) {members : List FieldAccessor}
    (isValueType : Bool) {terms : List Sexp} (hlength : terms.length = members.length) :
    t.readFields type (.composite members isValueType) terms =
      (members.zip terms).mapM fun q => do return (q.1.field, ← t.readValue q.1.type q.2) := by
  induction members generalizing terms with
  | nil =>
      obtain rfl := List.length_eq_zero_iff.1 hlength
      rfl
  | cons f members ih =>
      cases terms with
      | nil => contradiction
      | cons term terms =>
          rw [readFields, ih (Nat.succ.inj hlength), List.zip_cons_cons, List.mapM_cons]
          simp

/-- Where there are as many terms as accessors, the fields are all there. -/
theorem fieldsAt_eq (t : ConstantTable) (type : TypeRef) {s : Sentence} {terms : List Sexp}
    (hlength : terms.length = s.fieldAccessors.length) :
    t.fieldsAt type s.shape terms = some (t.readFields type s.shape terms) := by
  unfold Sentence.fieldAccessors at hlength
  cases hshape : s.shape with
  | str =>
      rw [hshape] at hlength
      obtain ⟨term, rfl⟩ := List.length_eq_one_iff.1 hlength
      cases term <;> rfl
  | composite members isValueType =>
      rw [hshape] at hlength
      rw [fieldsAt, readFields_eq_mapM t type isValueType (hlength.trans (List.length_map _))]
  | _ =>
      rw [hshape] at hlength
      obtain rfl := List.length_eq_zero_iff.1 hlength
      rfl

theorem recordAt_eq (t : ConstantTable) (type : TypeRef) (s : Sentence) (items : List Sexp) :
    t.recordAt type s items = some (t.readRecord type s items) := by
  unfold recordAt readRecord
  cases hc : s.constructor? with
  | none =>
      dsimp only
      split <;> rfl
  | some c =>
      dsimp only
      split
      · next h =>
          obtain ⟨hhead, harity⟩ := h
          obtain _ | ⟨_ | _ | _, _ | ⟨pointer, _ | ⟨tag, terms⟩⟩⟩ := items <;>
            simp only [Sexp.head?, List.length_cons, List.length_nil, Sentence.length_accessors hc,
              Option.some.injEq, reduceCtorEq, Nat.add_right_cancel_iff] at hhead harity
          subst hhead
          have hfields := t.fieldsAt_eq type harity
          simp [behind?, hfields, Sentence.length_accessors hc, harity]
      · next h =>
          split
          · next head pointer tag terms =>
              have hmiss : ¬(head = c.name ∧ terms.length + 2 = c.accessors.length) := by
                rintro ⟨rfl, harity⟩
                exact h ⟨rfl, congrArg Nat.succ harity⟩
              rw [if_neg hmiss]
          · rfl

theorem readsInBounds (t : ConstantTable) : t.ReadsInBounds where
  int := intAt_eq
  real := realAt_eq
  array := t.arrayAt_eq
  sequence := t.sequenceAt_eq
  record := t.recordAt_eq

/-! ## binding -/

/-- **Binding is atomic and keeps to types.** Where it fails the table is the one it found. Where it
succeeds, one constant has a new value and nothing else is new; the value has the type that the
constant is declared with. No position outside of a list is read on the way. -/
theorem bind_atomic_typed (h : t.Reached) (name text : String) :
    (∀ err, t.bind name text = .error err → (binding name text).run t = (.error err, t)) ∧
    (∀ v t', t.bind name text = .ok (v, t') → (binding name text).run t = (.ok v, t') ∧
      (∃ type, t.declared.find? name = some type ∧ t.Typed type v) ∧
      t'.sentences = t.sentences ∧ t'.tags = t.tags ∧ t'.declared = t.declared ∧
      ∀ other, t'.value? other = if name = other then some v else t.value? other) ∧
    t.ReadsInBounds := by
  refine ⟨fun err herr => ?_, fun v t' hok => ?_, t.readsInBounds⟩
  · rw [binding_eq, herr]
    rfl
  · have hrun : (binding name text).run t = (.ok v, t') := by
      rw [binding_eq, hok]
      rfl
    obtain ⟨type, e, hdeclared, -, hread, rfl⟩ := bind_eq_ok_iff.1 hok
    have htyped : t.Typed type v := (readsTyped h.encodings e).1 type v hread
    exact ⟨hrun, ⟨type, hdeclared, htyped⟩, rfl, rfl, rfl, fun other => Table.find?_set ..⟩

end ConstantTable

namespace Sample.Chain

open ConstantTable (Request binding)

theorem reached : table.Reached := by
  refine ⟨[.register (sentence .string), .register (sentence link), .declare "first" link], ?_, rfl⟩
  simp only [List.forall_mem_cons]
  exact ⟨⟨none, program, .string, encode_sentence.1⟩, ⟨none, program, link, encode_sentence.2⟩,
    trivial, by simp⟩

/-- A link that is alone. -/
def bare : Value :=
  .record link link 1
    [("label", .null .string), ("next", .null link), ("sizes", .null (.array .int32))]

/-- A record whose references are null. -/
def bareTerm : Sexp :=
  .app "Sample.Link_ctor" [.atom "1", .atom "Sample.Link_tag", .atom "Str_null",
    .atom "Sample.Link_null", .app "as" [.atom "SeqArray_null", .atom "Sizes"]]

theorem readValue_bare : table.readValue link bareTerm = .ok bare := rfl

theorem readable_bare : bareTerm.Readable := by
  simp only [bareTerm, Sexp.app, Sexp.Readable, Sexp.ReadableAll]
  decide

theorem bind_bare : table.bind "first" bareTerm.render =
    .ok (bare, { table with values := table.values.set "first" bare }) :=
  ConstantTable.bind_eq_ok_iff.2
    ⟨link, bareTerm, rfl, Sexp.parse_render readable_bare, readValue_bare, rfl⟩

/-- The text of a link is bound in one step, to a value of the link's type. -/
theorem bare_atomic_typed : table.Reached ∧ table.Typed link bare ∧
    (binding "first" bareTerm.render).run table =
      (.ok bare, { table with values := table.values.set "first" bare }) := by
  obtain ⟨-, hok, -⟩ := ConstantTable.bind_atomic_typed reached "first" bareTerm.render
  obtain ⟨hrun, ⟨type, hdeclared, htyped⟩, -⟩ := hok bare _ bind_bare
  obtain rfl : link = type := Option.some.inj hdeclared
  exact ⟨reached, htyped, hrun⟩

end Sample.Chain

end Pathwise
