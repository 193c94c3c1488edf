import Pathwise.Proofs.Exploration
import Pathwise.Proofs.Resolution.Request

/-!
# Pathwise.Proofs.Resolution.Budget

Staging types explores what they depend on (`Engine.explores_stageType`). The fuel
it is given is enough: every sentence that can come up is of a type below the
brackets of the one asked for, or of a type that the program names.

Hence how it ends is a matter of the program and the type alone
(`Engine.stageType_outcome`): what has a sentence already makes no difference, as
long as it is sealed.
-/

namespace Pathwise

open Relation (ReflTransGen)

/-! ## types that can come up -/

theorem TypeRef.mem_chain_self (t : TypeRef) : t ∈ t.chain := by
  cases t <;> simp [chain]

theorem TypeRef.chain_subset {t u : TypeRef} (h : u ∈ t.chain) : u.chain ⊆ t.chain := by
  fun_induction chain t with
  | case1 e ih =>
      cases List.mem_cons.1 h with
      | inl heq => rw [heq, chain]; exact List.Subset.refl _
      | inr hmem => exact List.subset_cons_of_subset _ (ih hmem)
  | case2 t hne =>
      rw [List.mem_singleton.1 h]
      cases t with
      | array e => exact absurd rfl (hne e)
      | builtin kind => exact List.Subset.refl _
      | named space name arguments => exact List.Subset.refl _

namespace Program

variable {p : Program} {o : Options}

theorem mem_typeReach {t : TypeRef} :
    t ∈ p.typeReach ↔ t = .object ∨ ∃ d ∈ p.types.values,
      ∃ u, (d.base = some u ∨ ∃ f ∈ d.fields, f.type = u) ∧ t ∈ u.chain := by
  simp only [typeReach, List.mem_cons, List.mem_flatMap, List.mem_append, Option.mem_toList,
    List.mem_map]

/-- What stands below the brackets of a type that can come up can come up as well. -/
theorem chain_subset_typeReach {t : TypeRef} (h : t ∈ p.typeReach) : t.chain ⊆ p.typeReach := by
  obtain rfl | ⟨d, hd, u, hu, ht⟩ := mem_typeReach.1 h
  · intro u hu
    rw [List.mem_singleton.1 hu]
    exact List.mem_cons_self
  · intro v hv
    exact mem_typeReach.2 (Or.inr ⟨d, hd, u, hu, TypeRef.chain_subset ht hv⟩)

theorem mem_typeReach_of_ofDef {exceptionBase : Option TypeRef} {t u : TypeRef} {d : TypeDef}
    {s : Sentence} (hd : d ∈ p.types.values) (h : Sentence.ofDef exceptionBase t d = .ok s)
    (hu : u ∈ s.dependencies) : u ∈ p.typeReach := by
  have hobject : .object ∈ p.typeReach := List.mem_cons_self
  have hbase : ∀ b, d.base = some b → b ∈ p.typeReach := fun b hb =>
    mem_typeReach.2 (Or.inr ⟨d, hd, b, Or.inl hb, b.mem_chain_self⟩)
  unfold Sentence.ofDef at h
  split at h
  · obtain rfl := Except.ok.inj h
    obtain ⟨hmem, -⟩ | hb := Sentence.mem_dependencies_reference.1 hu
    · contradiction
    · cases hdecl : d.base with
      | none =>
          rw [hdecl] at hb
          exact Option.some.inj hb ▸ hobject
      | some b =>
          rw [hdecl] at hb
          exact Option.some.inj hb ▸ hbase b hdecl
  · simp only [bind_eq_ok, pure_eq_ok] at h
    obtain ⟨fields, hfields, rfl⟩ := h
    obtain ⟨hmem, -⟩ | hb := Sentence.mem_dependencies_reference.1 hu
    · obtain ⟨a, ha, rfl⟩ := List.mem_map.1 hmem
      obtain ⟨f, hf, hacc⟩ := exists_of_mem_of_mapM_eq_ok hfields ha
      have htype : a.type = f.type := by
        unfold Sentence.fieldAccessor at hacc
        split at hacc
        · contradiction
        · rw [← Except.ok.inj hacc]
      rw [htype]
      exact mem_typeReach.2
        (Or.inr ⟨d, hd, f.type, Or.inr ⟨f, (List.mem_filter.1 hf).1, rfl⟩, f.type.mem_chain_self⟩)
    · unfold Sentence.baseOf at hb
      cases hdecl : d.base with
      | none =>
          simp only [hdecl] at hb
          split at hb
          · contradiction
          · exact Option.some.inj hb ▸ hobject
      | some b =>
          simp only [hdecl] at hb
          exact Option.some.inj hb ▸ hbase b hdecl

/-- A sentence depends on what stands below the brackets of its type, or on types that the program
names. -/
theorem mem_chain_or_typeReach {exceptionBase : Option TypeRef} {t u : TypeRef} {s : Sentence}
    (h : Sentence.encode exceptionBase p t = .ok s) (hu : u ∈ s.dependencies) :
    u ∈ t.chain ∨ u ∈ p.typeReach := by
  have hobject : .object ∈ p.typeReach := List.mem_cons_self
  unfold Sentence.encode at h
  split at h
  · obtain rfl := Except.ok.inj h
    contradiction
  · obtain rfl := Except.ok.inj h
    contradiction
  · obtain rfl := Except.ok.inj h
    contradiction
  · obtain rfl := Except.ok.inj h
    obtain ⟨hmem, -⟩ | hb := Sentence.mem_dependencies_reference.1 hu
    · contradiction
    · exact Or.inr (Option.some.inj hb ▸ hobject)
  · obtain rfl := Except.ok.inj h
    obtain ⟨hmem, -⟩ | hb := Sentence.mem_dependencies_reference.1 hu <;> contradiction
  · contradiction
  · next e =>
      split at h
      · contradiction
      · obtain rfl := Except.ok.inj h
        obtain ⟨hmem, -⟩ | hb := Sentence.mem_dependencies_reference.1 hu
        · rw [List.mem_singleton.1 hmem, TypeRef.chain]
          exact Or.inl (List.mem_cons_of_mem _ e.mem_chain_self)
        · exact Or.inr (Option.some.inj hb ▸ hobject)
  · split at h
    · contradiction
    · next d hd =>
        have hmem : d ∈ p.types.values :=
          List.mem_map.2 ⟨(_, d), Table.mem_entries_of_find? hd, rfl⟩
        exact Or.inr (mem_typeReach_of_ofDef hmem h hu)

/-- What the sentence of a type depends on, or why the type has none. -/
def dependencies (p : Program) (o : Options) (t : TypeRef) :
    Except ResolutionError (List TypeRef) :=
  ((Engine.new p o).constructSentence [] t).map fun x => x.1.dependencies

end Program

namespace Engine

variable {e : Engine} {s out : Staging}

/-- Without handlers the sentence of a type is that of the program. -/
theorem constructSentence_nil_eq_ok {t : TypeRef} {x : Sentence × Bool} :
    e.constructSentence [] t = .ok x ↔
      Sentence.encode e.options.exceptionBase e.program t = .ok x.1 ∧ x.2 = false := by
  obtain ⟨x, handled⟩ := x
  unfold constructSentence ask
  cases hencode : Sentence.encode e.options.exceptionBase e.program t with
  | ok y => simp [pure, Except.pure, bind, Except.bind, eq_comm]
  | error cause => cases cause <;> simp [bind, Except.bind, throw, throwThe, MonadExceptOf.throw]

end Engine

namespace Program

variable {p : Program} {o : Options} {t : TypeRef}

theorem dependencies_eq_ok {more : List TypeRef} :
    p.dependencies o t = .ok more ↔
      ∃ x, Sentence.encode o.exceptionBase p t = .ok x ∧ x.dependencies = more := by
  unfold dependencies
  rw [map_eq_ok]
  constructor
  · rintro ⟨x, hx, rfl⟩
    exact ⟨x.1, (Engine.constructSentence_nil_eq_ok.1 hx).1, rfl⟩
  · rintro ⟨x, hx, rfl⟩
    exact ⟨(x, false), Engine.constructSentence_nil_eq_ok.2 ⟨hx, rfl⟩, rfl⟩

/-- A list of all types that can come up when a type is staged. -/
theorem dependencies_subset {u : TypeRef} {more : List TypeRef}
    (hu : u ∈ t.chain ++ p.typeReach) (h : p.dependencies o u = .ok more) :
    more ⊆ t.chain ++ p.typeReach := by
  obtain ⟨x, hx, rfl⟩ := dependencies_eq_ok.1 h
  intro v hv
  rw [List.mem_append] at hu ⊢
  cases mem_chain_or_typeReach hx hv with
  | inl hchain =>
      exact hu.imp (fun h => TypeRef.chain_subset h hchain)
        (fun h => chain_subset_typeReach h hchain)
  | inr hreach => exact Or.inr hreach

/-- One type depends on another, directly or not. -/
def Reaches (p : Program) (o : Options) : TypeRef → TypeRef → Prop :=
  ReflTransGen (Expands (p.dependencies o))

end Program

namespace Engine

variable {e : Engine} {s out : Staging}

/-! ## staging as an exploration -/

theorem hasType_addSentence_eq_mark (s : Staging) (t : TypeRef) (x : Sentence) (handled : Bool) :
    (s.addSentence t x handled).hasType e = mark (s.hasType e) t := by
  funext u
  exact hasType_addSentence s t u x handled

/-- Types with a sentence are known. The fuel is enough if it counts, of all types that can come
up, those without a sentence. -/
theorem explores_stageTypes {nodes : List TypeRef}
    (hnodes : ∀ t ∈ nodes, ∀ more, e.program.dependencies e.options t = .ok more →
      more ⊆ nodes)
    {fuel : Nat} {queue : List TypeRef} (hqueue : queue ⊆ nodes)
    (hfuel : unknownAmong nodes (s.hasType e) ≤ fuel) :
    Explores (e.program.dependencies e.options) queue (s.hasType e)
      ((e.stageTypes [] fuel queue s).map fun out => out.hasType e) := by
  induction fuel generalizing queue s with
  | zero =>
      refine .of_dropWhile (fun _ => id) ?_
      unfold stageTypes
      cases hdrop : queue.dropWhile (s.hasType e) with
      | nil => exact .done _
      | cons t rest =>
          -- without fuel all types that can come up have a sentence, but `t` has none
          obtain ⟨hnew, hsub⟩ := unskipped_of_dropWhile hdrop
          have hlt := unknownAmong_mark_lt (hqueue (hsub List.mem_cons_self)) hnew
          omega
  | succ fuel ih =>
      refine .of_dropWhile (fun _ => id) ?_
      unfold stageTypes
      cases hdrop : queue.dropWhile (s.hasType e) with
      | nil => exact .done _
      | cons t rest =>
          obtain ⟨hnew, hsub⟩ := unskipped_of_dropWhile hdrop
          have ht : t ∈ nodes := hqueue (hsub List.mem_cons_self)
          have hrest : rest ⊆ nodes := fun u hu => hqueue (hsub (List.mem_cons_of_mem t hu))
          cases hx : e.constructSentence [] t with
          | error err =>
              have hdeps : e.program.dependencies e.options t = .error err :=
                congrArg (Except.map _) hx
              simp only [hx, bind, Except.bind, Except.map]
              exact .fail hnew hdeps
          | ok x =>
              have hdeps : e.program.dependencies e.options t = .ok x.1.dependencies :=
                congrArg (Except.map _) hx
              have hlt := unknownAmong_mark_lt ht hnew
              have hqueue' : rest ++ x.1.dependencies ⊆ nodes :=
                List.append_subset.2 ⟨hrest, hnodes t ht _ hdeps⟩
              rw [← hasType_addSentence_eq_mark s t x.1 x.2] at hlt
              have hnext := ih hqueue' (Nat.le_of_lt_succ (Nat.lt_of_lt_of_le hlt hfuel))
              rw [hasType_addSentence_eq_mark] at hnext
              simp only [hx, bind, Except.bind]
              exact .add hnew hdeps hnext

/-- **Staging a type** explores what it depends on. -/
theorem explores_stageType (e : Engine) (s : Staging) (t : TypeRef) :
    Explores (e.program.dependencies e.options) [t] (s.hasType e)
      ((e.stageType [] s t).map fun out => out.hasType e) := by
  refine explores_stageTypes
    (fun u hu more hmore => Program.dependencies_subset (t := t) hu hmore) ?_ ?_
  · intro u hu
    rw [List.mem_singleton.1 hu]
    exact List.mem_append_left _ t.mem_chain_self
  · refine (unknownAmong_le_length _ _).trans ?_
    simp [typeBudget]

end Engine

/-! ## how staging ends -/

namespace Program

variable {p : Program} {o : Options} {t : TypeRef}

/-- How staging a type ends where no type has a sentence yet. -/
def typeOutcome (p : Program) (o : Options) (t : TypeRef) : Except ResolutionError Unit :=
  ((Engine.new p o).stageType [] .empty t).map fun _ => ()

theorem typeOutcome_eq_ok :
    p.typeOutcome o t = .ok () ↔
      ∀ u, p.Reaches o t u → ∃ x, Sentence.encode o.exceptionBase p u = .ok x := by
  have hnone : Sealed (p.dependencies o) (Staging.empty.hasType (Engine.new p o)) := by
    intro u hu
    contradiction
  have hiff := ((Engine.new p o).explores_stageType .empty t).exists_ok_iff hnone
  have hok : p.typeOutcome o t = .ok () ↔
      ∃ final, ((Engine.new p o).stageType [] .empty t).map (·.hasType (Engine.new p o)) =
        .ok final := by
    simp [typeOutcome, map_eq_ok]
  rw [hok, hiff, List.forall_mem_singleton]
  refine forall₂_congr fun u _ => ?_
  constructor
  · rintro ⟨more, hmore⟩
    obtain ⟨x, hx, -⟩ := dependencies_eq_ok.1 hmore
    exact ⟨x, hx⟩
  · rintro ⟨x, hx⟩
    exact ⟨x.dependencies, dependencies_eq_ok.2 ⟨x, hx, rfl⟩⟩

end Program

namespace Engine

variable {e : Engine} {s out : Staging} {t : TypeRef}

/-- The types with a sentence can all be encoded and depend on no others. -/
def TypesSealed (e : Engine) (s : Staging) : Prop :=
  Sealed (e.program.dependencies e.options) (s.hasType e)

/-- **How staging a type ends** does not depend on which types have a sentence. -/
theorem stageType_outcome (hs : e.TypesSealed s) (t : TypeRef) :
    (e.stageType [] s t).map (fun _ => ()) = e.program.typeOutcome e.options t := by
  have hfresh := explores_stageType (Engine.new e.program e.options) .empty t
  have heq := (e.explores_stageType s t).eq_map_either hs hfresh
  unfold Program.typeOutcome
  cases h : e.stageType [] s t with
  | error err =>
      cases h' : (Engine.new e.program e.options).stageType [] .empty t with
      | error err' => simpa [h, h', Except.map] using heq
      | ok out' => simp [h, h', Except.map] at heq
  | ok out =>
      cases h' : (Engine.new e.program e.options).stageType [] .empty t with
      | error err' => simp [h, h', Except.map] at heq
      | ok out' => rfl

theorem explores_of_stageType (h : e.stageType [] s t = .ok out) :
    Explores (e.program.dependencies e.options) [t] (s.hasType e) (.ok (out.hasType e)) := by
  simpa only [h, Except.map] using e.explores_stageType s t

theorem TypesSealed.stageType (hs : e.TypesSealed s) (h : e.stageType [] s t = .ok out) :
    e.TypesSealed out :=
  (explores_of_stageType h).isSealed hs

theorem TypesSealed.hasType_stageType (hs : e.TypesSealed s) (h : e.stageType [] s t = .ok out)
    (u : TypeRef) :
    out.hasType e u = true ↔ s.hasType e u = true ∨ e.program.Reaches e.options t u := by
  rw [(explores_of_stageType h).known_iff hs u]
  simp only [List.mem_singleton, exists_eq_left]
  rfl

/-! Many types, one after the other. -/

theorem foldlM_stageType_outcome (hs : e.TypesSealed s) (types : List TypeRef) :
    (types.foldlM (e.stageType []) s).map (fun _ => ()) =
      forM types (e.program.typeOutcome e.options) := by
  induction types generalizing s with
  | nil => rfl
  | cons t types ih =>
      rw [List.foldlM_cons, List.forM_cons, ← stageType_outcome hs t]
      cases h : e.stageType [] s t with
      | error err => rfl
      | ok mid => exact ih (hs.stageType h)

theorem TypesSealed.foldlM (hs : e.TypesSealed s) {types : List TypeRef}
    (h : types.foldlM (e.stageType []) s = .ok out) :
    e.TypesSealed out ∧ ∀ u, out.hasType e u = true ↔
      s.hasType e u = true ∨ ∃ t ∈ types, e.program.Reaches e.options t u := by
  induction types generalizing s with
  | nil =>
      obtain rfl : s = out := by simpa using h
      exact ⟨hs, by simp⟩
  | cons t types ih =>
      rw [List.foldlM_cons] at h
      obtain ⟨mid, hmid, h⟩ := bind_eq_ok.1 h
      obtain ⟨hsealed, hiff⟩ := ih (hs.stageType hmid) h
      refine ⟨hsealed, fun u => ?_⟩
      rw [hiff u, hs.hasType_stageType hmid u, List.exists_mem_cons_iff, or_assoc]

end Engine

end Pathwise
