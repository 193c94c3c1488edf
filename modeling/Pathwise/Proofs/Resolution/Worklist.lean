import Mathlib.Data.List.TakeWhile
import Pathwise.Proofs.Encoding
import Pathwise.Resolution.Engine

/-!
# Pathwise.Proofs.Resolution.Worklist

The two work-lists of a request as relations, without fuel: `Engine.Stages` works
off queued types, `Engine.Drains` queued types and methods. A list that was worked
off with any amount of fuel is related to its result (`stages_of_stageTypes`,
`drains_of_drain`), so what a request keeps is shown by induction on how it went.
-/

namespace Pathwise

/-! ## tables -/

namespace Table

variable {κ α : Type} [DecidableEq κ]

section Insert

variable {ρ β : Type} {find? : ρ → κ → Option α} {key : β → κ} {value : β → α} {insert : β → ρ → ρ}

/-- Storing something under its key, where what is there first stays. -/
def KeepsFirst (find? : ρ → κ → Option α) (key : β → κ) (value : β → α) (insert : β → ρ → ρ) :
    Prop :=
  ∀ b r k, find? (insert b r) k =
    if key b = k then some ((find? r (key b)).getD (value b)) else find? r k

/-- What is found after storing many things was there before or is one of them. -/
theorem KeepsFirst.find?_of_foldr (h : KeepsFirst find? key value insert) {l : List β} {r : ρ}
    {k : κ} {a : α} (hfind : find? (l.foldr insert r) k = some a) :
    find? r k = some a ∨ ∃ b ∈ l, key b = k ∧ value b = a := by
  induction l with
  | nil => exact Or.inl hfind
  | cons b l ih =>
      have hrest : find? (l.foldr insert r) k = some a →
          find? r k = some a ∨ ∃ b' ∈ b :: l, key b' = k ∧ value b' = a := by
        intro hfind
        obtain hold | ⟨b', hb', hka⟩ := ih hfind
        · exact Or.inl hold
        · exact Or.inr ⟨b', List.mem_cons_of_mem b hb', hka⟩
      rw [List.foldr_cons, h] at hfind
      by_cases hk : key b = k
      · subst hk
        rw [if_pos rfl] at hfind
        cases hold : find? (l.foldr insert r) (key b) with
        | some a' =>
            rw [hold] at hfind
            exact hrest (hold.trans hfind)
        | none =>
            rw [hold] at hfind
            exact Or.inr ⟨b, List.mem_cons_self, rfl, Option.some.inj hfind⟩
      · rw [if_neg hk] at hfind
        exact hrest hfind

/-- What was there before stays. -/
theorem KeepsFirst.find?_foldr_of_some (h : KeepsFirst find? key value insert) (l : List β) {r : ρ}
    {k : κ} {a : α} (hfind : find? r k = some a) : find? (l.foldr insert r) k = some a := by
  induction l with
  | nil => exact hfind
  | cons b l ih =>
      rw [List.foldr_cons, h]
      by_cases hk : key b = k
      · rw [if_pos hk, hk, ih]
        rfl
      · rw [if_neg hk, ih]

/-- Everything that is stored is found under its key. -/
theorem KeepsFirst.isSome_find?_foldr (h : KeepsFirst find? key value insert) {l : List β} (r : ρ)
    {b : β} (hb : b ∈ l) : (find? (l.foldr insert r) (key b)).isSome := by
  induction l with
  | nil => contradiction
  | cons b' l ih =>
      rw [List.foldr_cons, h]
      by_cases hk : key b' = key b
      · simp [hk]
      · rw [if_neg hk]
        refine ih ((List.mem_cons.1 hb).resolve_left fun heq => hk ?_)
        rw [heq]

end Insert

end Table

/-! ## sentences -/

/-- A handler that answers only with a sentence of the type it is asked for. -/
def TypeHandler.Faithful (h : TypeHandler) : Prop :=
  ∀ exceptionBase t s, h.answer exceptionBase t = .ok (some s) → s.type = t

namespace Engine

variable {e : Engine} {t : TypeRef} {queue seen : List PendingRef} {handled : Bool} {m : MethodRef}
  {types : List TypeRef} {x : Sentence} {f : Form} {r : PendingRef}

/-- Answers come from handlers. -/
theorem exists_of_ask {η α : Type} {answer : η → Except String (Option α)} {reference : String}
    {handlers : List η} {a : α} (h : ask answer reference handlers = .ok (some a)) :
    ∃ handler ∈ handlers, answer handler = .ok (some a) := by
  induction handlers with
  | nil => simp [ask] at h
  | cons handler handlers ih =>
      unfold ask at h
      split at h
      · next hanswer =>
          obtain rfl := Option.some.inj (Except.ok.inj h)
          exact ⟨handler, List.mem_cons_self, hanswer⟩
      · obtain ⟨other, hmem, hanswer⟩ := ih h
        exact ⟨other, List.mem_cons_of_mem handler hmem, hanswer⟩
      · contradiction

/-- A sentence comes from a handler or from the program. -/
theorem constructSentence_cases {handlers : List TypeHandler}
    (h : e.constructSentence handlers t = .ok (x, handled)) :
    (∃ handler ∈ handlers, handler.answer e.options.exceptionBase t = .ok (some x)) ∨
      Sentence.encode e.options.exceptionBase e.program t = .ok x := by
  unfold constructSentence at h
  obtain ⟨answer, hanswer, h⟩ := bind_eq_ok.1 h
  cases answer with
  | some y =>
      obtain ⟨rfl, -⟩ : y = x ∧ true = handled := by simpa using h
      exact Or.inl (exists_of_ask hanswer)
  | none =>
      simp only at h
      split at h
      · next y hy =>
          obtain ⟨rfl, -⟩ : y = x ∧ false = handled := by simpa using h
          exact Or.inr hy
      · contradiction
      · contradiction

/-- Sentences are of the type asked for. -/
theorem type_of_constructSentence {handlers : List TypeHandler}
    (hhandlers : ∀ handler ∈ handlers, handler.Faithful)
    (h : e.constructSentence handlers t = .ok (x, handled)) : x.type = t := by
  obtain ⟨handler, hmem, hanswer⟩ | hencode := constructSentence_cases h
  · exact hhandlers handler hmem _ t x hanswer
  · exact Sentence.type_of_encode hencode

/-! ## queued types -/

/-- Working off queued types: one that has a sentence is skipped, for any other one a sentence is
staged, and what it depends on is queued behind the rest. -/
inductive Stages (e : Engine) (handlers : List TypeHandler) :
    (queue : List TypeRef) → Staging → Staging → Prop where
  | done (s : Staging) : Stages e handlers [] s s
  | skip {t : TypeRef} {queue : List TypeRef} {s out : Staging} (ht : s.hasType e t = true)
      (rest : Stages e handlers queue s out) : Stages e handlers (t :: queue) s out
  | add {t : TypeRef} {queue : List TypeRef} {s out : Staging} {sentence : Sentence}
      {handled : Bool} (h : e.constructSentence handlers t = .ok (sentence, handled))
      (rest : Stages e handlers (queue ++ sentence.dependencies)
        (s.addSentence t sentence handled) out) : Stages e handlers (t :: queue) s out

/-- Working off one type after the other. -/
inductive StagesEach (e : Engine) (handlers : List TypeHandler) :
    List TypeRef → Staging → Staging → Prop where
  | nil (s : Staging) : StagesEach e handlers [] s s
  | cons {t : TypeRef} {types : List TypeRef} {s mid out : Staging}
      (first : Stages e handlers [t] s mid) (rest : StagesEach e handlers types mid out) :
      StagesEach e handlers (t :: types) s out

variable {handlers : List TypeHandler} {s out : Staging}

theorem Stages.of_dropWhile {queue : List TypeRef}
    (h : e.Stages handlers (queue.dropWhile (s.hasType e)) s out) :
    e.Stages handlers queue s out := by
  induction queue with
  | nil => exact h
  | cons t queue ih =>
      rw [List.dropWhile_cons] at h
      split at h
      · next ht => exact .skip ht (ih h)
      · exact h

/-- Staging works a queue off. -/
theorem stages_of_stageTypes {fuel : Nat} {queue : List TypeRef}
    (h : e.stageTypes handlers fuel queue s = .ok out) : e.Stages handlers queue s out := by
  induction fuel generalizing queue s with
  | zero =>
      unfold stageTypes at h
      split at h
      · next hdrop =>
          obtain rfl := Except.ok.inj h
          exact .of_dropWhile (hdrop ▸ .done s)
      · contradiction
  | succ fuel ih =>
      unfold stageTypes at h
      split at h
      · next hdrop =>
          obtain rfl := Except.ok.inj h
          exact .of_dropWhile (hdrop ▸ .done s)
      · next t rest hdrop =>
          obtain ⟨⟨sentence, handled⟩, hsentence, h⟩ := bind_eq_ok.1 h
          exact .of_dropWhile (hdrop ▸ .add hsentence (ih h))

theorem stagesEach_of_foldlM (h : types.foldlM (e.stageType handlers) s = .ok out) :
    e.StagesEach handlers types s out := by
  induction types generalizing s with
  | nil =>
      obtain rfl : s = out := by simpa using h
      exact .nil s
  | cons t types ih =>
      rw [List.foldlM_cons] at h
      obtain ⟨mid, hmid, h⟩ := bind_eq_ok.1 h
      exact .cons (stages_of_stageTypes hmid) (ih h)

/-! What staging types does, in any case: nothing is forgotten, and what a new sentence depends on
is staged too. -/

theorem hasType_addSentence (s : Staging) (t u : TypeRef) (sentence : Sentence) (handled : Bool) :
    (s.addSentence t sentence handled).hasType e u = (decide (t = u) || s.hasType e u) := by
  unfold Staging.hasType Staging.addSentence
  rw [Table.contains_set, Bool.or_assoc]

/-- A sentence that an encoding looks up is staged or stored. -/
theorem lookup_cases (h : s.lookup e t = .ok x) :
    (∃ handled, (t, x, handled) ∈ s.sentences.entries) ∨ e.types.find? t = some x := by
  unfold Staging.lookup at h
  cases hfind : s.sentences.find? t with
  | some entry =>
      rw [hfind] at h
      obtain rfl := Except.ok.inj h
      exact Or.inl ⟨entry.2, Table.mem_entries_of_find? hfind⟩
  | none =>
      rw [hfind] at h
      unfold TypeRepository.lookup at h
      cases hstored : e.types.find? t with
      | some stored =>
          rw [hstored] at h
          exact Or.inr (congrArg some (Except.ok.inj h))
      | none =>
          rw [hstored] at h
          contradiction

theorem hasType_of_lookup (h : s.lookup e t = .ok x) :
    s.hasType e t = true := by
  unfold Staging.hasType
  rw [Bool.or_eq_true]
  obtain ⟨handled, hmem⟩ | hstored := lookup_cases h
  · exact Or.inl (Table.contains_of_mem_entries hmem)
  · exact Or.inr (Option.isSome_iff_exists.2 ⟨x, hstored⟩)

theorem hasType_cases (h : s.hasType e t = true) :
    (∃ entry, (t, entry) ∈ s.sentences.entries) ∨ ∃ x, e.types.find? t = some x := by
  unfold Staging.hasType at h
  cases Bool.or_eq_true_iff.1 h with
  | inl hstaged =>
      obtain ⟨entry, hentry⟩ := Option.isSome_iff_exists.1 hstaged
      exact Or.inl ⟨entry, Table.mem_entries_of_find? hentry⟩
  | inr hstored => exact Or.inr (Option.isSome_iff_exists.1 hstored)

/-- Everything that the staged sentences depend on has a sentence, or is one of some types. -/
def DependsWithin (e : Engine) (s : Staging) (queue : List TypeRef) : Prop :=
  ∀ t entry, (t, entry) ∈ s.sentences.entries → ∀ d ∈ entry.1.dependencies,
    s.hasType e d = true ∨ d ∈ queue

/-- The second staging goes on from the first by staging types. -/
structure Extends (e : Engine) (handlers : List TypeHandler) (s out : Staging) : Prop where
  forms : out.forms = s.forms
  keeps : ∀ t, s.hasType e t = true → out.hasType e t = true
  origin : ∀ t entry, (t, entry) ∈ out.sentences.entries →
    (t, entry) ∈ s.sentences.entries ∨ e.constructSentence handlers t = .ok entry

/-- Nothing added. -/
theorem Extends.refl (s : Staging) : e.Extends handlers s s where
  forms := rfl
  keeps _ h := h
  origin _ _ h := Or.inl h

/-- Additions in a row. -/
theorem Extends.trans {mid : Staging} (h : e.Extends handlers s mid)
    (h' : e.Extends handlers mid out) : e.Extends handlers s out where
  forms := h'.forms.trans h.forms
  keeps t ht := h'.keeps t (h.keeps t ht)
  origin t entry hentry := by
    cases h'.origin t entry hentry with
    | inl hmid => exact h.origin t entry hmid
    | inr hnew => exact Or.inr hnew

theorem Extends.addSentence {sentence : Sentence}
    (h : e.constructSentence handlers t = .ok (sentence, handled)) :
    e.Extends handlers s (s.addSentence t sentence handled) where
  forms := rfl
  keeps u hu := by rw [hasType_addSentence, hu, Bool.or_true]
  origin u entry hentry := by
    cases Table.mem_entries_set hentry with
    | inl heq =>
        obtain ⟨rfl, rfl⟩ := Prod.mk.inj heq
        exact Or.inr h
    | inr hmem => exact Or.inl hmem

/-- Every staged sentence is filed under its own type. -/
def OwnTypes (s : Staging) : Prop := ∀ t entry, (t, entry) ∈ s.sentences.entries → entry.1.type = t

theorem Extends.ownTypes (hhandlers : ∀ handler ∈ handlers, handler.Faithful)
    (h : e.Extends handlers s out) (hs : OwnTypes s) : OwnTypes out := by
  intro t entry hentry
  cases h.origin t entry hentry with
  | inl hold => exact hs t entry hold
  | inr hnew => exact type_of_constructSentence hhandlers hnew

/-- Staging only adds. -/
theorem Stages.extends {queue : List TypeRef} (h : e.Stages handlers queue s out) :
    e.Extends handlers s out := by
  induction h with
  | done s => exact .refl s
  | skip _ _ ih => exact ih
  | add h _ ih => exact (Extends.addSentence h).trans ih

/-- What is queued is staged. -/
theorem Stages.hasType_of_mem {queue : List TypeRef} (h : e.Stages handlers queue s out)
    (ht : t ∈ queue) : out.hasType e t = true := by
  induction h with
  | done s => contradiction
  | skip hu rest ih =>
      cases List.mem_cons.1 ht with
      | inl heq => exact rest.extends.keeps t (heq ▸ hu)
      | inr hmem => exact ih hmem
  | add h rest ih =>
      cases List.mem_cons.1 ht with
      | inl heq =>
          refine rest.extends.keeps t ?_
          simp [hasType_addSentence, heq]
      | inr hmem => exact ih (List.mem_append_left _ hmem)

/-- **Dependencies are followed**: what the staged sentences depend on is in the queue until it has
a sentence. -/
theorem Stages.dependsWithin {queue : List TypeRef} (h : e.Stages handlers queue s out)
    (hs : e.DependsWithin s queue) : e.DependsWithin out [] := by
  induction h with
  | done s => exact hs
  | skip hu _ ih =>
      refine ih fun t entry hentry d hd => ?_
      obtain hd | hd := hs t entry hentry d hd
      · exact Or.inl hd
      · cases List.mem_cons.1 hd with
        | inl heq => exact Or.inl (heq ▸ hu)
        | inr hmem => exact Or.inr hmem
  | add h rest ih =>
      refine ih fun t entry hentry d hd => ?_
      rw [hasType_addSentence]
      cases Table.mem_entries_set hentry with
      | inl heq =>
          obtain ⟨rfl, rfl⟩ := Prod.mk.inj heq
          exact Or.inr (List.mem_append_right _ hd)
      | inr hmem =>
          obtain hd | hd := hs t entry hmem d hd
          · exact Or.inl (by rw [hd, Bool.or_true])
          · cases List.mem_cons.1 hd with
            | inl heq => exact Or.inl (by simp [heq])
            | inr hmem => exact Or.inr (List.mem_append_left _ hmem)

theorem DependsWithin.mono {queue queue' : List TypeRef} (h : e.DependsWithin s queue)
    (hsub : queue ⊆ queue') : e.DependsWithin s queue' := by
  intro t entry hentry d hd
  exact (h t entry hentry d hd).imp_right fun hmem => hsub hmem

theorem StagesEach.extends (h : e.StagesEach handlers types s out) :
    e.Extends handlers s out := by
  induction h with
  | nil s => exact .refl s
  | cons first _ ih => exact first.extends.trans ih

theorem StagesEach.hasType_of_mem (h : e.StagesEach handlers types s out) (ht : t ∈ types) :
    out.hasType e t = true := by
  induction h with
  | nil s => contradiction
  | cons first rest ih =>
      cases List.mem_cons.1 ht with
      | inl heq => exact rest.extends.keeps t (first.hasType_of_mem (heq ▸ List.mem_cons_self))
      | inr hmem => exact ih hmem

theorem StagesEach.dependsWithin (h : e.StagesEach handlers types s out)
    (hs : e.DependsWithin s []) : e.DependsWithin out [] := by
  induction h with
  | nil s => exact hs
  | cons first _ ih => exact ih (first.dependsWithin (hs.mono (List.nil_subset _)))

/-! ## queued types and methods -/

/-- How a method gets its form: from a handler, as a method that is left out, or by encoding its
graph once all types that the graph mentions are staged. -/
inductive Constructs (e : Engine) (types : List TypeHandler) (methods : List MethodHandler)
    (m : MethodRef) (s : Staging) : Form → (handled : Bool) → Staging → Prop where
  | handled {f : Form} (h : ask (·.answer m) m.text methods = .ok (some f)) :
      Constructs e types methods m s f true s
  | leftOut (h : (m.isAbstract || e.options.isIgnorable m) = true) :
      Constructs e types methods m s (.empty m) false s
  | encoded {g : MethodGraph} {f : Form} {out : Staging} (hg : e.program.methodGraph? m = some g)
      (hs : e.StagesEach types g.mentionedTypes s out)
      (hf : Form.ofGraph (out.lookup e) g = .ok f) : Constructs e types methods m s f false out

/-- Working off queued references: one that was seen before, or a method with a stored form, is
skipped; a type is staged with all it depends on; a method gets a form, and what that form leaves
to resolve is queued behind the rest. -/
inductive Drains (e : Engine) (types : List TypeHandler) (methods : List MethodHandler) :
    (queue seen : List PendingRef) → Staging → Staging → Prop where
  | done (seen : List PendingRef) (s : Staging) : Drains e types methods [] seen s s
  | skip {next : PendingRef} {queue seen : List PendingRef} {s out : Staging} (h : next ∈ seen)
      (rest : Drains e types methods queue seen s out) :
      Drains e types methods (next :: queue) seen s out
  | type {t : TypeRef} {queue seen : List PendingRef} {s mid out : Staging}
      (h : e.Stages types [t] s mid)
      (rest : Drains e types methods queue (.type t :: seen) mid out) :
      Drains e types methods (.type t :: queue) seen s out
  | stored {m : MethodRef} {queue seen : List PendingRef} {s out : Staging}
      (h : e.forms.contains m = true)
      (rest : Drains e types methods queue (.method m :: seen) s out) :
      Drains e types methods (.method m :: queue) seen s out
  | method {m : MethodRef} {queue seen : List PendingRef} {s mid out : Staging} {f : Form}
      {handled : Bool} (h : e.Constructs types methods m s f handled mid)
      (rest : Drains e types methods (queue ++ e.pendingOf mid f) (.method m :: seen)
        (mid.addForm m f handled) out) :
      Drains e types methods (.method m :: queue) seen s out

variable {types : List TypeHandler} {methods : List MethodHandler}

/-- How a form is built. -/
theorem constructs_of_constructForm {scope : EngineScope}
    (h : e.constructForm scope s m = .ok (f, handled, out)) :
    e.Constructs scope.typeHandlers scope.methodHandlers m s f handled out := by
  unfold constructForm at h
  obtain ⟨answer, hanswer, h⟩ := bind_eq_ok.1 h
  cases answer with
  | some form =>
      obtain ⟨rfl, rfl, rfl⟩ : form = f ∧ true = handled ∧ s = out := by simpa using h
      exact .handled hanswer
  | none =>
      simp only at h
      split at h
      · next hleft =>
          obtain ⟨rfl, rfl, rfl⟩ : Form.empty m = f ∧ false = handled ∧ s = out := by simpa using h
          exact .leftOut hleft
      · split at h
        · contradiction
        · next g hg =>
            simp only [bind_eq_ok, pure_eq_ok, mapError_eq_ok] at h
            obtain ⟨staged, hstaged, form, hform, heq⟩ := h
            obtain ⟨rfl, rfl, rfl⟩ : form = f ∧ false = handled ∧ staged = out := by simpa using heq
            exact .encoded hg (stagesEach_of_foldlM hstaged) hform

theorem Drains.of_dropWhile (h : e.Drains types methods (queue.dropWhile (· ∈ seen)) seen s out) :
    e.Drains types methods queue seen s out := by
  induction queue with
  | nil => exact h
  | cons next queue ih =>
      rw [List.dropWhile_cons] at h
      split at h
      · next hseen => exact .skip (by simpa using hseen) (ih h)
      · exact h

/-- One step of a request, whatever scopes are open. -/
theorem Drains.of_step {scope : EngineScope} {r r' : Registry} {next : PendingRef}
    {more queue seen : List PendingRef} {mid : Staging}
    (h : e.step scope s r next = (.ok (mid, more), r'))
    (rest : e.Drains scope.typeHandlers scope.methodHandlers (queue ++ more) (next :: seen) mid
      out) :
    e.Drains scope.typeHandlers scope.methodHandlers (next :: queue) seen s out := by
  cases next with
  | type t =>
      obtain ⟨hok, -⟩ := Prod.mk.inj h
      simp only [bind_eq_ok, pure_eq_ok] at hok
      obtain ⟨staged, hstaged, heq⟩ := hok
      obtain ⟨rfl, rfl⟩ := Prod.mk.inj heq
      rw [List.append_nil] at rest
      exact .type (stages_of_stageTypes hstaged) rest
  | method m =>
      unfold step at h
      simp only at h
      split at h
      · next hstored =>
          obtain ⟨hok, -⟩ := Prod.mk.inj h
          obtain ⟨rfl, rfl⟩ := Prod.mk.inj (Except.ok.inj hok)
          rw [List.append_nil] at rest
          exact .stored hstored rest
      · obtain ⟨hok, -⟩ := Prod.mk.inj h
        simp only [bind_eq_ok, pure_eq_ok] at hok
        obtain ⟨⟨form, handled, staged⟩, hform, heq⟩ := hok
        obtain ⟨rfl, rfl⟩ := Prod.mk.inj heq
        -- the nested scope has the handlers of the one around it
        have hconstructs := constructs_of_constructForm hform
        exact .method hconstructs rest

/-- How methods are worked off. -/
theorem drains_of_drain {scope : EngineScope} {fuel : Nat} {r r' : Registry}
    (h : e.drain scope fuel queue seen s r = (.ok out, r')) :
    e.Drains scope.typeHandlers scope.methodHandlers queue seen s out := by
  induction fuel generalizing queue seen s r with
  | zero =>
      unfold drain at h
      cases hq : queue.dropWhile (· ∈ seen) with
      | nil =>
          simp only [hq, Prod.mk.injEq, Except.ok.injEq] at h
          rw [← h.1]
          exact .of_dropWhile (hq ▸ .done seen s)
      | cons next rest => cases next <;> simp [hq] at h
  | succ fuel ih =>
      unfold drain at h
      cases hq : queue.dropWhile (· ∈ seen) with
      | nil =>
          simp only [hq, Prod.mk.injEq, Except.ok.injEq] at h
          rw [← h.1]
          exact .of_dropWhile (hq ▸ .done seen s)
      | cons next rest =>
          simp only [hq] at h
          rcases hstep : e.step scope s r next with ⟨err | ⟨staged, more⟩, r''⟩
          · simp [hstep] at h
          · simp only [hstep] at h
            exact .of_dropWhile (hq ▸ .of_step hstep (ih h))

/-- Building only adds types. -/
theorem Constructs.extends (h : e.Constructs types methods m s f handled out) :
    e.Extends types s out := by
  cases h with
  | handled _ => exact .refl s
  | leftOut _ => exact .refl s
  | encoded _ hs _ => exact hs.extends

theorem Constructs.dependsWithin (h : e.Constructs types methods m s f handled out)
    (hs : e.DependsWithin s []) :
    e.DependsWithin out [] := by
  cases h with
  | handled _ => exact hs
  | leftOut _ => exact hs
  | encoded _ hstages _ => exact hstages.dependsWithin hs

/-- A reference that is dealt with: a type that has a sentence, a method that has a form. -/
def IsSettled (e : Engine) (s : Staging) : PendingRef → Prop
  | .type t => s.hasType e t = true
  | .method m => e.forms.contains m = true ∨ s.forms.contains m = true

theorem Extends.isSettled (h : e.Extends types s out) (hr : e.IsSettled s r) :
    e.IsSettled out r := by
  cases r with
  | type t => exact h.keeps t hr
  | method m =>
      unfold IsSettled at hr ⊢
      rwa [h.forms]

theorem isSettled_addForm {s : Staging} (m : MethodRef) (f : Form) (handled : Bool)
    (hr : e.IsSettled s r) : e.IsSettled (s.addForm m f handled) r := by
  cases r with
  | type t => exact hr
  | method m' =>
      refine hr.imp_right fun hm => ?_
      unfold Staging.addForm
      rw [Table.contains_set, hm, Bool.or_true]

theorem isSettled_addForm_self (s : Staging) (m : MethodRef) (f : Form) (handled : Bool) :
    e.IsSettled (s.addForm m f handled) (.method m) := by
  refine Or.inr ?_
  unfold Staging.addForm
  rw [Table.contains_set]
  simp

/-- What is settled stays settled. -/
theorem Drains.isSettled (h : e.Drains types methods queue seen s out) (hr : e.IsSettled s r) :
    e.IsSettled out r := by
  induction h with
  | done seen s => exact hr
  | skip _ _ ih => exact ih hr
  | type h _ ih => exact ih (h.extends.isSettled hr)
  | stored _ _ ih => exact ih hr
  | method h _ ih => exact ih (isSettled_addForm _ _ _ (h.extends.isSettled hr))

/-- Everything queued is dealt with in the end, if what was seen before is. -/
theorem Drains.isSettled_of_mem (h : e.Drains types methods queue seen s out)
    (hseen : ∀ r ∈ seen, e.IsSettled s r) :
    ∀ r ∈ queue, e.IsSettled out r := by
  induction h with
  | done seen s => simp
  | skip hmem rest ih =>
      rw [List.forall_mem_cons]
      exact ⟨rest.isSettled (hseen _ hmem), ih hseen⟩
  | type h rest ih =>
      have ht : e.IsSettled _ (.type _) := h.hasType_of_mem List.mem_cons_self
      rw [List.forall_mem_cons]
      refine ⟨rest.isSettled ht, ih ?_⟩
      rw [List.forall_mem_cons]
      exact ⟨ht, fun r hr => h.extends.isSettled (hseen r hr)⟩
  | stored h rest ih =>
      rw [List.forall_mem_cons]
      refine ⟨rest.isSettled (Or.inl h), ih ?_⟩
      rw [List.forall_mem_cons]
      exact ⟨Or.inl h, hseen⟩
  | method h rest ih =>
      rw [List.forall_mem_cons]
      refine ⟨rest.isSettled (isSettled_addForm_self _ _ _ _),
        fun r hr => ih ?_ r (List.mem_append_left _ hr)⟩
      rw [List.forall_mem_cons]
      exact ⟨isSettled_addForm_self _ _ _ _,
        fun r hr => isSettled_addForm _ _ _ (h.extends.isSettled (hseen r hr))⟩

/-! ## what is stored in the end -/

theorem keepsFirst_types : Table.KeepsFirst TypeRepository.find? (·.2.1.type) (·.2.1)
    fun (x : TypeRef × Sentence × Bool) r => r.insert x.2.1 := by
  intro x r t
  simp [TypeRepository.insert, TypeRepository.find?, Table.find?_insertNew]

theorem keepsFirst_forms : Table.KeepsFirst FormRepository.find? (·.1) (·.2.1)
    fun (x : MethodRef × Form × Bool) r => r.insert x.1 x.2.1 := by
  intro x r m
  simp [FormRepository.insert, FormRepository.find?, Table.find?_insertNew]

/-- Stored sentences stay. -/
theorem find?_commit_types_of_some (s : Staging) (h : e.types.find? t = some x) :
    (s.commit e).types.find? t = some x :=
  keepsFirst_types.find?_foldr_of_some s.sentences.entries h

/-- Stored forms stay. -/
theorem find?_commit_forms_of_some (s : Staging) (h : e.forms.find? m = some f) :
    (s.commit e).forms.find? m = some f :=
  keepsFirst_forms.find?_foldr_of_some s.forms.entries h

/-- A stored sentence was stored before or is staged, for whichever type. -/
theorem find?_types_of_commit (h : (s.commit e).types.find? t = some x) :
    e.types.find? t = some x ∨
      ∃ u entry, (u, entry) ∈ s.sentences.entries ∧ entry.1 = x ∧ x.type = t := by
  obtain hold | ⟨⟨u, entry⟩, hmem, rfl, rfl⟩ := keepsFirst_types.find?_of_foldr h
  · exact Or.inl hold
  · exact Or.inr ⟨u, entry, hmem, rfl, rfl⟩

/-- A stored form was stored before or is staged. -/
theorem find?_forms_of_commit (h : (s.commit e).forms.find? m = some f) :
    e.forms.find? m = some f ∨ ∃ handled, (m, f, handled) ∈ s.forms.entries := by
  obtain hold | ⟨⟨u, form, handled⟩, hmem, rfl, rfl⟩ := keepsFirst_forms.find?_of_foldr h
  · exact Or.inl hold
  · exact Or.inr ⟨handled, hmem⟩

theorem contains_commit_forms (s : Staging) (h : s.forms.contains m = true) :
    (s.commit e).forms.contains m = true := by
  obtain ⟨entry, hentry⟩ := Option.isSome_iff_exists.1 h
  exact keepsFirst_forms.isSome_find?_foldr e.forms (Table.mem_entries_of_find? hentry)

/-- If sentences are filed under their own types, the types that have one are stored. -/
theorem contains_commit_types (hs : OwnTypes s) (h : s.hasType e t = true) :
    (s.commit e).types.contains t = true := by
  obtain ⟨entry, hmem⟩ | ⟨x, hx⟩ := hasType_cases h
  · have hstored := keepsFirst_types.isSome_find?_foldr e.types hmem
    rwa [hs t entry hmem] at hstored
  · exact Option.isSome_iff_exists.2 ⟨x, find?_commit_types_of_some s hx⟩

end Engine

end Pathwise
