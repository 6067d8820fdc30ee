import Mathlib.Data.List.Infix

-- Traces of a machine that takes every step from every state, where a step that is not enabled
-- leaves the state as it is.
namespace Trace

variable {σ α : Type*} (step : σ → α → σ)

def run (s : σ) (l : List α) : σ :=
  l.foldl step s

-- Every action of the trace meets `P`, which may speak about the actions before it.
def Along (P : List α → α → Prop) (l : List α) : Prop :=
  ∀ pre a, pre ++ [a] <+: l → P pre a

-- Every step of the trace meets `P`, which may speak about the state before it.
def Meets (P : σ → α → Prop) (s : σ) (l : List α) : Prop :=
  Along (fun pre a => P (run step s pre) a) l

variable {step} {s : σ} {a : α} {l l' : List α} {P : List α → α → Prop} {Q : σ → α → Prop}

@[simp]
theorem run_nil : run step s [] = s :=
  rfl

theorem run_append : run step s (l ++ l') = run step (run step s l) l' :=
  List.foldl_append

@[simp]
theorem run_concat : run step s (l ++ [a]) = step (run step s l) a :=
  run_append

theorem along_nil : Along P [] :=
  fun _ _ h => by simp at h

theorem along_concat : Along P (l ++ [a]) ↔ Along P l ∧ P l a := by
  refine ⟨fun h => ⟨fun pre b hb => h pre b (hb.trans (List.prefix_append ..)),
    h l a List.prefix_rfl⟩, ?_⟩
  rintro ⟨h, ha⟩ pre b hb
  cases List.prefix_concat_iff.mp hb
  case inl he =>
    obtain ⟨rfl, hab⟩ := List.append_inj' he rfl
    obtain rfl : b = a := by simpa using hab
    exact ha
  case inr hb => exact h pre b hb

theorem Along.mono {P' : List α → α → Prop} (h : Along P l) (hp : ∀ pre a, P pre a → P' pre a) :
    Along P' l :=
  fun pre a ha => hp pre a (h pre a ha)

theorem Along.of_mem (h : Along P l) (ha : a ∈ l) : ∃ pre, P pre a := by
  have ⟨pre, suf, he⟩ := List.append_of_mem ha
  exact ⟨pre, h pre a ⟨suf, by rw [he, List.append_assoc]; rfl⟩⟩

theorem meets_nil : Meets step Q s [] :=
  along_nil

theorem meets_concat : Meets step Q s (l ++ [a]) ↔ Meets step Q s l ∧ Q (run step s l) a :=
  along_concat

theorem meets_cons : Meets step Q s (a :: l) ↔ Q s a ∧ Meets step Q (step s a) l := by
  constructor
  · exact fun h => ⟨h [] a (by simp), fun pre b hb => h (a :: pre) b (by simpa using hb)⟩
  · rintro ⟨ha, h⟩ pre b hb
    cases pre
    case nil =>
      obtain rfl : b = a := by simpa using hb
      exact ha
    case cons c pre =>
      have ⟨hc, hb⟩ : c = a ∧ pre ++ [b] <+: l := List.cons_prefix_cons.mp hb
      exact hc ▸ h pre b hb

def decideMeets [∀ s a, Decidable (Q s a)] : (s : σ) → (l : List α) → Decidable (Meets step Q s l)
  | _, []     => .isTrue meets_nil
  | s, a :: l =>
    have := decideMeets (step s a) l
    decidable_of_iff' _ meets_cons

instance [∀ s a, Decidable (Q s a)] : Decidable (Meets step Q s l) :=
  decideMeets s l

-- What holds at first and is preserved by every step that meets `Q` holds at the end of every trace
-- whose steps meet `Q`.
theorem Meets.invariant {I : σ → Prop} (h : Meets step Q s l) (h0 : I s)
    (hs : ∀ s a, I s → Q s a → I (step s a)) : I (run step s l) := by
  induction l using List.reverseRecOn
  case nil => exact h0
  case append_singleton l a ih =>
    obtain ⟨hl, ha⟩ := meets_concat.1 h
    exact run_concat ▸ hs _ _ (ih hl) ha

theorem invariant {I : σ → Prop} (h0 : I s) (hs : ∀ s a, I s → I (step s a)) : I (run step s l) :=
  Meets.invariant (Q := fun _ _ => True) (fun _ _ _ => trivial) h0 fun s a h _ => hs s a h

-- A condition may be weakened by what is preserved under it.
theorem Meets.mono {I : σ → Prop} {Q' : σ → α → Prop} (h : Meets step Q s l) (h0 : I s)
    (hs : ∀ s a, I s → Q s a → I (step s a)) (hq : ∀ s a, I s → Q s a → Q' s a) :
    Meets step Q' s l := by
  intro pre a ha
  have ⟨hp, ha⟩ := meets_concat.1 fun pre' b hb => h pre' b (hb.trans ha)
  exact hq _ _ (hp.invariant h0 hs) ha

-- Two conditions that come to the same under what is preserved.
theorem meets_congr {I : σ → Prop} {Q' : σ → α → Prop} (h0 : I s)
    (hs : ∀ s a, I s → Q s a → I (step s a)) (hq : ∀ s a, I s → (Q' s a ↔ Q s a)) :
    Meets step Q' s l ↔ Meets step Q s l :=
  ⟨fun h => h.mono h0 (fun s a i h' => hs s a i ((hq s a i).mp h')) fun s a i => (hq s a i).mp,
    fun h => h.mono h0 hs fun s a i => (hq s a i).mpr⟩

end Trace
