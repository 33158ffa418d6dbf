import Mathlib.Data.List.Basic
import Mathlib.Data.List.Sort
import Mathlib.Order.Basic

/-!
# Step functions by their breakpoints

A step function has a value below its breakpoints and at each breakpoint the value from
there on.  `compress` leaves out the breakpoints at which the value stays the same, and
`spans` lists the half-open intervals of constant value.  The spans of the compressed
breakpoints tile the range: exactly one span holds a point, and its value is that of the
function (`filter_spans_compress`).
-/

namespace StepFunction

variable {α : Type*}

/-- The value at `x`: that of the last breakpoint not above `x`, or `a` below all of them. -/
def value (f : ℕ → α) (a : α) : List ℕ → ℕ → α
  | [], _ => a
  | s :: l, x => if s ≤ x then value f (f s) l x else a

/-- The breakpoints at which the value changes. -/
def compress [DecidableEq α] (f : ℕ → α) (a : α) : List ℕ → List (ℕ × α)
  | [] => []
  | s :: l => if f s = a then compress f a l else (s, f s) :: compress f (f s) l

/-- An interval of constant value, from `lo` to below `hi`. -/
structure Span (α : Type*) where
  lo : ℕ
  hi : Option ℕ
  value : α
  deriving DecidableEq, Repr

/-- The point is in the span. -/
def Span.Holds (σ : Span α) (x : ℕ) : Prop := σ.lo ≤ x ∧ ∀ h ∈ σ.hi, x < h

instance (σ : Span α) (x : ℕ) : Decidable (σ.Holds x) := by
  unfold Span.Holds
  infer_instance

/-- The intervals between the breakpoints, from `lo` on. -/
def spans (lo : ℕ) (a : α) : List (ℕ × α) → List (Span α)
  | [] => [⟨lo, none, a⟩]
  | (s, b) :: l => ⟨lo, some s, a⟩ :: spans s b l

variable {f : ℕ → α} {a : α} {l : List ℕ} {lo x : ℕ}

@[simp] theorem value_nil : value f a [] x = a := rfl

theorem value_of_forall_lt (h : ∀ s ∈ l, x < s) : value f a l x = a := by
  cases l with
  | nil => rfl
  | cons s l =>
    rw [value, if_neg]
    exact not_le.mpr (h s List.mem_cons_self)

/-- The value is that of a breakpoint, the last one not above the point. -/
theorem value_eq (hl : (lo :: l).SortedLT) (hx : lo ≤ x) :
    ∃ s ∈ lo :: l, s ≤ x ∧ (∀ t ∈ lo :: l, t ≤ x → t ≤ s) ∧ value f (f lo) l x = f s := by
  induction l generalizing lo with
  | nil =>
    refine ⟨lo, List.mem_cons_self, hx, fun t ht _ => ?_, rfl⟩
    rw [List.mem_singleton.mp ht]
  | cons s l ih =>
    obtain ⟨hhead, htail⟩ := List.pairwise_cons.mp hl.pairwise
    by_cases hsx : s ≤ x
    · obtain ⟨t, ht, htx, hlast, hval⟩ := ih htail.sortedLT hsx
      refine ⟨t, List.mem_cons_of_mem _ ht, htx, fun u hu hux => ?_, ?_⟩
      · rcases List.mem_cons.mp hu with rfl | hu
        · exact (hhead t ht).le
        · exact hlast u hu hux
      · rw [value, if_pos hsx, hval]
    · refine ⟨lo, List.mem_cons_self, hx, fun u hu hux => ?_, ?_⟩
      · rcases List.mem_cons.mp hu with rfl | hu
        · exact le_rfl
        · rcases List.mem_cons.mp hu with rfl | hu
          · exact absurd hux hsx
          · have hlt := (List.pairwise_cons.mp htail).1 u hu
            omega
      · rw [value, if_neg hsx]

/-- No span starts before the first. -/
theorem le_lo_of_mem_spans {r : List (ℕ × α)} (hr : (lo :: r.map Prod.fst).SortedLT)
    {σ : Span α} (hσ : σ ∈ spans lo a r) : lo ≤ σ.lo := by
  induction r generalizing lo a with
  | nil =>
    obtain rfl := List.mem_singleton.mp hσ
    exact le_rfl
  | cons p r ih =>
    rw [List.map_cons, List.sortedLT_iff_pairwise, List.pairwise_cons] at hr
    rcases List.mem_cons.mp hσ with rfl | hσ
    · exact le_rfl
    · have hlt := hr.1 p.1 List.mem_cons_self
      exact hlt.le.trans (ih hr.2.sortedLT hσ)

variable [DecidableEq α]

theorem mem_compress {p : ℕ × α} (hp : p ∈ compress f a l) : p.1 ∈ l ∧ p.2 = f p.1 := by
  induction l generalizing a with
  | nil => cases hp
  | cons s l ih =>
    rw [compress] at hp
    split at hp
    · exact ⟨List.mem_cons_of_mem _ (ih hp).1, (ih hp).2⟩
    · rcases List.mem_cons.mp hp with rfl | hp
      · exact ⟨List.mem_cons_self, rfl⟩
      · exact ⟨List.mem_cons_of_mem _ (ih hp).1, (ih hp).2⟩

theorem compress_sublist : ((compress f a l).map Prod.fst).Sublist l := by
  induction l generalizing a with
  | nil => exact List.Sublist.slnil
  | cons s l ih =>
    rw [compress]
    split
    · exact ih.cons s
    · exact ih.cons_cons s

theorem sortedLT_compress (hl : (lo :: l).SortedLT) :
    (lo :: (compress f a l).map Prod.fst).SortedLT :=
  (hl.pairwise.sublist (compress_sublist.cons_cons lo)).sortedLT

/-- **Exactly one span holds a point, and its value is the function's.** -/
theorem filter_spans_compress (hl : (lo :: l).SortedLT) (hx : lo ≤ x) :
    ∃ σ : Span α, (spans lo a (compress f a l)).filter (fun σ => σ.Holds x) = [σ] ∧
      σ.value = value f a l x := by
  induction l generalizing lo a with
  | nil =>
    refine ⟨⟨lo, none, a⟩, ?_, rfl⟩
    rw [compress, spans, List.filter_cons_of_pos, List.filter_nil]
    exact decide_eq_true ⟨hx, fun h hh => absurd hh (Option.not_mem_none h)⟩
  | cons s l ih =>
    obtain ⟨hhead, htail⟩ := List.pairwise_cons.mp hl.pairwise
    have hlo : lo < s := hhead s List.mem_cons_self
    have htail' : (s :: l).SortedLT := htail.sortedLT
    by_cases hsame : f s = a
    · -- the breakpoint is left out
      have hskip := hl.pairwise.sublist ((List.sublist_cons_self s l).cons_cons lo)
      obtain ⟨σ, hfilter, hval⟩ := ih (a := a) hskip.sortedLT hx
      refine ⟨σ, by rw [compress, if_pos hsame, hfilter], hval.trans ?_⟩
      rw [value]
      split
      case isTrue => rw [hsame]
      case isFalse hsx =>
        refine value_of_forall_lt fun t ht => ?_
        have hlt := (List.pairwise_cons.mp htail).1 t ht
        omega
    · rw [compress, if_neg hsame, spans, value]
      by_cases hsx : s ≤ x
      · obtain ⟨σ, hfilter, hval⟩ := ih (a := f s) htail' hsx
        refine ⟨σ, ?_, by rw [if_pos hsx, hval]⟩
        rw [List.filter_cons_of_neg, hfilter]
        intro h
        have hlt := (of_decide_eq_true h).2 s rfl
        omega
      · refine ⟨⟨lo, some s, a⟩, ?_, by rw [if_neg hsx]⟩
        rw [List.filter_cons_of_pos, List.filter_eq_nil_iff.mpr]
        · -- the later spans start above the point
          intro σ hσ h
          have hge := le_lo_of_mem_spans (sortedLT_compress htail') hσ
          have hle := (of_decide_eq_true h).1
          omega
        · refine decide_eq_true ⟨hx, fun h hh => ?_⟩
          obtain rfl := Option.some_inj.mp hh
          exact not_le.mp hsx

end StepFunction
