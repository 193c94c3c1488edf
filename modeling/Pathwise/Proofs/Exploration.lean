import Mathlib.Data.List.Basic
import Mathlib.Logic.Relation

/-!
# Pathwise.Proofs.Exploration

Work-lists in general. `Explores expand` works off a queue of nodes: a known node
is skipped, any other one becomes known and what it expands to is queued behind
the rest; the first node that cannot be expanded ends it with an error.

The result depends on what is known only as far as it must. If the known nodes are
sealed, that is, they lead to nothing else and none of them fails, then knowing
them beforehand changes neither the error nor what is known besides
(`Explores.with_sealed`). Without an error everything known then is what was known
before and what the queue leads to (`Explores.known_iff`).
-/

namespace Pathwise

open Relation (ReflTransGen)

variable {α ε : Type} [DecidableEq α]

/-- One more node is known. -/
def mark (known : α → Bool) (a : α) : α → Bool := fun b => decide (a = b) || known b

/-- The nodes of either set. -/
def either (known others : α → Bool) : α → Bool := fun a => known a || others a

/-- Working off a queue of nodes. -/
inductive Explores (expand : α → Except ε (List α)) :
    (queue : List α) → (known : α → Bool) → Except ε (α → Bool) → Prop where
  | done (known : α → Bool) : Explores expand [] known (.ok known)
  | skip {a : α} {queue : List α} {known : α → Bool} {out : Except ε (α → Bool)}
      (h : known a = true) (rest : Explores expand queue known out) :
      Explores expand (a :: queue) known out
  | fail {a : α} {queue : List α} {known : α → Bool} {err : ε} (h : known a = false)
      (herr : expand a = .error err) : Explores expand (a :: queue) known (.error err)
  | add {a : α} {queue more : List α} {known : α → Bool} {out : Except ε (α → Bool)}
      (h : known a = false) (hmore : expand a = .ok more)
      (rest : Explores expand (queue ++ more) (mark known a) out) :
      Explores expand (a :: queue) known out

/-- One node expands to another. -/
def Expands (expand : α → Except ε (List α)) (a b : α) : Prop :=
  ∃ more, expand a = .ok more ∧ b ∈ more

/-- Nodes that can all be expanded, and lead to no others. -/
def Sealed (expand : α → Except ε (List α)) (known : α → Bool) : Prop :=
  ∀ a, known a = true → ∃ more, expand a = .ok more ∧ ∀ b ∈ more, known b = true

/-- Nodes that can all be expanded, and lead to no others but those in the queue. -/
def SealedUpTo (expand : α → Except ε (List α)) (known : α → Bool) (queue : List α) : Prop :=
  ∀ a, known a = true → ∃ more, expand a = .ok more ∧ ∀ b ∈ more, known b = true ∨ b ∈ queue

variable {expand : α → Except ε (List α)} {queue : List α} {known others : α → Bool}
  {out : Except ε (α → Bool)}

omit [DecidableEq α] in
theorem Sealed.of_reaches (h : Sealed expand known) {a b : α} (ha : known a = true)
    (hab : ReflTransGen (Expands expand) a b) : known b = true := by
  induction hab with
  | refl => exact ha
  | tail _ hstep ih =>
      obtain ⟨more, hmore, hmem⟩ := hstep
      obtain ⟨more', hmore', hall⟩ := h _ ih
      obtain rfl := Except.ok.inj (hmore.symm.trans hmore')
      exact hall _ hmem

omit [DecidableEq α] in
theorem Sealed.upTo (h : Sealed expand known) (queue : List α) :
    SealedUpTo expand known queue := by
  intro a ha
  obtain ⟨more, hmore, hall⟩ := h a ha
  exact ⟨more, hmore, fun b hb => Or.inl (hall b hb)⟩

omit [DecidableEq α] in
/-- The first node that is not skipped. -/
theorem unskipped_of_dropWhile {skip : α → Bool} {a : α} {rest : List α}
    (h : queue.dropWhile skip = a :: rest) : skip a = false ∧ a :: rest ⊆ queue := by
  have hhead := List.head_dropWhile_not skip (l := queue) (by simp [h])
  simp only [h, List.head_cons] at hhead
  exact ⟨hhead, h ▸ List.dropWhile_subset skip⟩

namespace Explores

/-! ## one result -/

theorem unique {out' : Except ε (α → Bool)} (h : Explores expand queue known out)
    (h' : Explores expand queue known out') : out = out' := by
  induction h with
  | done known => cases h' with | done _ => rfl
  | skip hknown _ ih =>
      cases h' with
      | skip _ rest' => exact ih rest'
      | fail hnew _ => exact absurd (hknown.symm.trans hnew) (by simp)
      | add hnew _ _ => exact absurd (hknown.symm.trans hnew) (by simp)
  | fail hnew herr =>
      cases h' with
      | skip hknown _ => exact absurd (hknown.symm.trans hnew) (by simp)
      | fail _ herr' => exact congrArg Except.error (Except.error.inj (herr.symm.trans herr'))
      | add _ hmore _ => exact absurd (herr.symm.trans hmore) (by simp)
  | add hnew hmore _ ih =>
      cases h' with
      | skip hknown _ => exact absurd (hknown.symm.trans hnew) (by simp)
      | fail _ herr => exact absurd (hmore.symm.trans herr) (by simp)
      | add _ hmore' rest' =>
          obtain rfl := Except.ok.inj (hmore.symm.trans hmore')
          exact ih rest'

/-! ## what is known beforehand -/

theorem skipAll {front : List α} (hfront : ∀ a ∈ front, known a = true)
    (h : Explores expand queue known out) : Explores expand (front ++ queue) known out := by
  induction front with
  | nil => exact h
  | cons a front ih =>
      rw [List.forall_mem_cons] at hfront
      exact .skip hfront.1 (ih hfront.2)

theorem of_dropWhile {skip : α → Bool} (hskip : ∀ a, skip a = true → known a = true)
    (h : Explores expand (queue.dropWhile skip) known out) : Explores expand queue known out := by
  have hall : ∀ a ∈ queue.takeWhile skip, known a = true :=
    fun a ha => hskip a ((List.all_eq_true.1 List.all_takeWhile) a ha)
  simpa only [List.takeWhile_append_dropWhile] using skipAll hall h

/-- Known nodes can be taken out of the queue and put into it. -/
theorem requeue (h : Explores expand queue known out)
    (hothers : ∀ a, others a = true → known a = true) {queue' : List α}
    (hqueue : queue'.filter (!others ·) = queue.filter (!others ·)) :
    Explores expand queue' known out := by
  induction h generalizing queue' with
  | done known =>
      rw [List.filter_nil, List.filter_eq_nil_iff] at hqueue
      have hall : ∀ a ∈ queue', known a = true := fun a ha => hothers a (by simpa using hqueue a ha)
      simpa using skipAll hall (.done known)
  | @skip a queue known out hknown rest ih =>
      by_cases ha : others a = true
      · exact ih hothers (by simpa [ha] using hqueue)
      · rw [List.filter_cons_of_pos (by simpa using ha)] at hqueue
        obtain ⟨front, back, rfl, hfront, -, hback⟩ := List.filter_eq_cons_iff.1 hqueue
        exact skipAll (fun b hb => hothers b (by simpa using hfront b hb))
          (.skip hknown (ih hothers hback))
  | @fail a queue known err hnew herr =>
      have ha : ¬ others a = true := fun ha => by simp [hothers a ha] at hnew
      rw [List.filter_cons_of_pos (by simpa using ha)] at hqueue
      obtain ⟨front, back, rfl, hfront, -, -⟩ := List.filter_eq_cons_iff.1 hqueue
      exact skipAll (fun b hb => hothers b (by simpa using hfront b hb)) (.fail hnew herr)
  | @add a queue more known out hnew hmore rest ih =>
      have ha : ¬ others a = true := fun ha => by simp [hothers a ha] at hnew
      rw [List.filter_cons_of_pos (by simpa using ha)] at hqueue
      obtain ⟨front, back, rfl, hfront, -, hback⟩ := List.filter_eq_cons_iff.1 hqueue
      have hrest : Explores expand (back ++ more) (mark known a) out :=
        ih (fun b hb => by simp [mark, hothers b hb])
          (by rw [List.filter_append, List.filter_append, hback])
      exact skipAll (fun b hb => hothers b (by simpa using hfront b hb)) (.add hnew hmore hrest)

/-- **Sealed nodes make no difference**: if they are known beforehand, the error is the same, and
so is what is known in the end besides them. -/
theorem with_sealed (h : Explores expand queue known out) (hothers : Sealed expand others) :
    Explores expand queue (either known others) (out.map (either · others)) := by
  induction h with
  | done known => exact .done _
  | skip hknown _ ih => exact .skip (by simp [either, hknown]) ih
  | @fail a queue known err hnew herr =>
      refine .fail ?_ herr
      have ha : ¬ others a = true := fun ha => by
        obtain ⟨more, hmore, -⟩ := hothers a ha
        exact absurd (herr.symm.trans hmore) (by simp)
      simpa [either, hnew] using ha
  | @add a queue more known out hnew hmore rest ih =>
      by_cases ha : others a = true
      · -- what `a` expands to is known as well, so that it need not be queued
        obtain ⟨more', hmore', hall⟩ := hothers a ha
        obtain rfl := Except.ok.inj (hmore.symm.trans hmore')
        have hsame : either (mark known a) others = either known others := by
          funext b
          by_cases hab : a = b
          · subst hab
            simp [either, ha]
          · simp [either, mark, hab]
        rw [hsame] at ih
        have hnone : more.filter (!others ·) = [] := List.filter_eq_nil_iff.2 (by simpa using hall)
        refine .skip (by simp [either, ha])
          (ih.requeue (fun b (hb : others b = true) => by simp [either, hb]) ?_)
        rw [List.filter_append, hnone, List.append_nil]
      · have hsame : either (mark known a) others = mark (either known others) a := by
          funext b
          simp [either, mark, Bool.or_assoc]
        rw [hsame] at ih
        exact .add (by simpa [either, hnew] using ha) hmore ih

/-! ## what is known in the end -/

variable {final : α → Bool}

theorem known_of_known (h : Explores expand queue known (.ok final)) {a : α}
    (ha : known a = true) : final a = true := by
  generalize hout : Except.ok final = out at h
  induction h with
  | done known => cases hout; exact ha
  | skip _ _ ih => exact ih ha hout
  | fail _ _ => contradiction
  | add _ _ _ ih => exact ih (by simp [mark, ha]) hout

/-- Only what is known before or what the queue leads to is known in the end. -/
theorem reaches_of_known (h : Explores expand queue known (.ok final)) {a : α}
    (ha : final a = true) :
    known a = true ∨ ∃ b ∈ queue, ReflTransGen (Expands expand) b a := by
  generalize hout : Except.ok final = out at h
  induction h with
  | done known => cases hout; exact Or.inl ha
  | skip _ _ ih =>
      obtain hknown | ⟨b, hb, hba⟩ := ih hout
      · exact Or.inl hknown
      · exact Or.inr ⟨b, List.mem_cons_of_mem _ hb, hba⟩
  | fail _ _ => contradiction
  | @add c queue more known out hnew hmore rest ih =>
      obtain hknown | ⟨b, hb, hba⟩ := ih hout
      · by_cases hca : c = a
        · exact Or.inr ⟨c, List.mem_cons_self, hca ▸ .refl⟩
        · exact Or.inl (by simpa [mark, hca] using hknown)
      · rcases List.mem_append.1 hb with hb | hb
        · exact Or.inr ⟨b, List.mem_cons_of_mem _ hb, hba⟩
        · exact Or.inr ⟨c, List.mem_cons_self, .head ⟨more, hmore, hb⟩ hba⟩

/-- What is known in the end is sealed, and the queue is known. -/
theorem sealed_of_sealedUpTo (h : Explores expand queue known (.ok final))
    (hknown : SealedUpTo expand known queue) :
    Sealed expand final ∧ ∀ a ∈ queue, final a = true := by
  generalize hout : Except.ok final = out at h
  induction h with
  | done known =>
      cases hout
      refine ⟨fun a ha => ?_, by simp⟩
      obtain ⟨more, hmore, hall⟩ := hknown a ha
      exact ⟨more, hmore, fun b hb => (hall b hb).resolve_right (by simp)⟩
  | @skip a queue known out ha rest ih =>
      have hrest : SealedUpTo expand known queue := by
        intro b hb
        obtain ⟨more, hmore, hall⟩ := hknown b hb
        refine ⟨more, hmore, fun c hc => ?_⟩
        obtain hc | hc := hall c hc
        · exact Or.inl hc
        · obtain rfl | hc := List.mem_cons.1 hc
          · exact Or.inl ha
          · exact Or.inr hc
      obtain ⟨hsealed, hqueue⟩ := ih hrest hout
      subst hout
      exact ⟨hsealed, List.forall_mem_cons.2 ⟨rest.known_of_known ha, hqueue⟩⟩
  | fail _ _ => contradiction
  | @add a queue more known out hnew hmore rest ih =>
      have hrest : SealedUpTo expand (mark known a) (queue ++ more) := by
        intro b hb
        by_cases hab : a = b
        · subst hab
          exact ⟨more, hmore, fun c hc => Or.inr (List.mem_append_right _ hc)⟩
        · obtain ⟨more', hmore', hall⟩ := hknown b (by simpa [mark, hab] using hb)
          refine ⟨more', hmore', fun c hc => ?_⟩
          obtain hc | hc := hall c hc
          · exact Or.inl (by simp [mark, hc])
          · obtain rfl | hc := List.mem_cons.1 hc
            · exact Or.inl (by simp [mark])
            · exact Or.inr (List.mem_append_left _ hc)
      obtain ⟨hsealed, hqueue⟩ := ih hrest hout
      subst hout
      refine ⟨hsealed, List.forall_mem_cons.2 ⟨rest.known_of_known (by simp [mark]), ?_⟩⟩
      exact fun b hb => hqueue b (List.mem_append_left _ hb)

/-- From sealed nodes an exploration without error ends with sealed nodes. -/
theorem isSealed (h : Explores expand queue known (.ok final)) (hknown : Sealed expand known) :
    Sealed expand final :=
  (h.sealed_of_sealedUpTo (hknown.upTo queue)).1

/-- **What is known in the end**, if there is no error: what was known before, and all that the
queue leads to. -/
theorem known_iff (h : Explores expand queue known (.ok final)) (hknown : Sealed expand known)
    (a : α) : final a = true ↔
      known a = true ∨ ∃ b ∈ queue, ReflTransGen (Expands expand) b a := by
  refine ⟨h.reaches_of_known, ?_⟩
  rintro (ha | ⟨b, hb, hba⟩)
  · exact h.known_of_known ha
  · obtain ⟨hsealed, hqueue⟩ := h.sealed_of_sealedUpTo (hknown.upTo queue)
    exact hsealed.of_reaches (hqueue b hb) hba

/-- An error is that of a node which the queue leads to. -/
theorem exists_of_error {err : ε} (h : Explores expand queue known (.error err)) :
    ∃ b ∈ queue, ∃ a, ReflTransGen (Expands expand) b a ∧ expand a = .error err := by
  generalize hout : Except.error err = out at h
  induction h with
  | done known => contradiction
  | skip _ _ ih =>
      obtain ⟨b, hb, a, hba, ha⟩ := ih hout
      exact ⟨b, List.mem_cons_of_mem _ hb, a, hba, ha⟩
  | @fail a _ _ _ _ herr =>
      cases hout
      exact ⟨a, List.mem_cons_self, a, .refl, herr⟩
  | @add c queue more known out hnew hmore rest ih =>
      obtain ⟨b, hb, a, hba, ha⟩ := ih hout
      rcases List.mem_append.1 hb with hb | hb
      · exact ⟨b, List.mem_cons_of_mem _ hb, a, hba, ha⟩
      · exact ⟨c, List.mem_cons_self, a, .head ⟨more, hmore, hb⟩ hba, ha⟩

/-- **Success**: from sealed nodes there is no error just if everything that the queue leads to can
be expanded. -/
theorem exists_ok_iff (h : Explores expand queue known out) (hknown : Sealed expand known) :
    (∃ final, out = .ok final) ↔
      ∀ b ∈ queue, ∀ a, ReflTransGen (Expands expand) b a → ∃ more, expand a = .ok more := by
  constructor
  · rintro ⟨final, rfl⟩ b hb a hba
    obtain ⟨more, hmore, -⟩ := h.isSealed hknown a ((h.known_iff hknown a).2 (Or.inr ⟨b, hb, hba⟩))
    exact ⟨more, hmore⟩
  · intro hall
    cases out with
    | ok final => exact ⟨final, rfl⟩
    | error err =>
        obtain ⟨b, hb, a, hba, herr⟩ := h.exists_of_error
        obtain ⟨more, hmore⟩ := hall b hb a hba
        exact absurd (herr.symm.trans hmore) (by simp)

/-- What sealed nodes leave of the result of knowing nothing. -/
theorem eq_map_either {out' : Except ε (α → Bool)} (h : Explores expand queue known out)
    (hknown : Sealed expand known) (h' : Explores expand queue (fun _ => false) out') :
    out = out'.map (either · known) := by
  have hempty : either (fun _ => false) known = known := by
    funext a
    simp [either]
  have hwith := h'.with_sealed hknown
  rw [hempty] at hwith
  exact h.unique hwith

end Explores

/-! ## a measure -/

/-- How many of some nodes are not known, counted with repetitions. -/
def unknownAmong (nodes : List α) (known : α → Bool) : Nat := (nodes.filter (!known ·)).length

omit [DecidableEq α] in
theorem unknownAmong_le_length (nodes : List α) (known : α → Bool) :
    unknownAmong nodes known ≤ nodes.length :=
  List.length_filter_le _ _

/-- Getting to know one of them leaves fewer. -/
theorem unknownAmong_mark_lt {nodes : List α} {a : α} (ha : a ∈ nodes) (hnew : known a = false) :
    unknownAmong nodes (mark known a) < unknownAmong nodes known := by
  have hfilter : nodes.filter (!mark known a ·) = (nodes.filter (!known ·)).filter (a ≠ ·) := by
    rw [List.filter_filter]
    congr 1
    funext b
    simp [mark]
  unfold unknownAmong
  rw [hfilter]
  exact List.length_filter_lt_length_iff_exists.2
    ⟨a, List.mem_filter.2 ⟨ha, by simp [hnew]⟩, by simp⟩

end Pathwise
