import Mathlib.Tactic

/-!
# Bisection for the last index

A test that holds up to some index and fails after it. Two loops look for the last index at which
it holds: one narrows an interval whose lower end passes, the other closes an interval of indices
not yet probed and remembers the last that passed.
-/

namespace NamespaceIndexer.Lib

/-- `r` is the last index of the interval that passes. -/
structure IsLast (ok : ℤ → Prop) (lo hi r : ℤ) : Prop where
  ge : lo ≤ r
  le : r ≤ hi
  passes : ok r
  fails : ∀ x, r < x → x ≤ hi → ¬ ok x

namespace IsLast

variable {ok : ℤ → Prop} {lo hi m r : ℤ}

theorem raise (hm : lo ≤ m) (h : IsLast ok m hi r) : IsLast ok lo hi r :=
  ⟨hm.trans h.ge, h.le, h.passes, h.fails⟩

theorem congr {ok' : ℤ → Prop} (hok : ∀ x, lo ≤ x → (ok x ↔ ok' x)) (h : IsLast ok lo hi r) :
    IsLast ok' lo hi r :=
  ⟨h.ge, h.le, (hok r h.ge).mp h.passes,
    fun x hx hxhi hxok => h.fails x hx hxhi ((hok x (h.ge.trans hx.le)).mpr hxok)⟩

/-- Nothing passes from an index that fails on. -/
theorem lower (hanti : ∀ x y, lo ≤ x → x ≤ y → ok y → ok x) (hlo : lo ≤ m) (hm : m ≤ hi)
    (hfail : ¬ ok m) (h : IsLast ok lo (m - 1) r) : IsLast ok lo hi r := by
  have hle := h.le
  refine ⟨h.ge, by omega, h.passes, fun x hx hxhi hxok => ?_⟩
  by_cases hxm : x ≤ m - 1
  · exact h.fails x hx hxm hxok
  · exact hfail (hanti m x hlo (by omega) hxok)

end IsLast

/-- Where to probe an interval whose lower end passes. -/
structure Probe where
  mid : ℤ → ℤ → ℤ
  above : ∀ {lo hi}, lo < hi → lo < mid lo hi
  within : ∀ {lo hi}, lo < hi → mid lo hi ≤ hi

/-- `while (lo < hi)`: up to the probe if it passes, below it if not. -/
def Probe.narrow (p : Probe) (ok : ℤ → Prop) [DecidablePred ok] (lo hi : ℤ) : ℤ :=
  if h : lo < hi then
    if ok (p.mid lo hi) then p.narrow ok (p.mid lo hi) hi else p.narrow ok lo (p.mid lo hi - 1)
  else lo
termination_by (hi - lo).toNat
decreasing_by
  · have := p.above h
    omega
  · have := p.within h
    omega

/-- `while (lo <= hi)`, with the last index that passed. -/
def closeIn (ok : ℤ → Prop) [DecidablePred ok] (lo hi best : ℤ) : ℤ :=
  if lo ≤ hi then
    if ok ((lo + hi) / 2) then closeIn ok ((lo + hi) / 2 + 1) hi ((lo + hi) / 2)
    else closeIn ok lo ((lo + hi) / 2 - 1) best
  else best
termination_by (hi + 1 - lo).toNat

/-- `while (lam < hi)`: up by one while the next index passes, with `hi - lam` for `fuel`. -/
def scanUp (ok : ℤ → Prop) [DecidablePred ok] : ℕ → ℤ → ℤ
  | 0, lam => lam
  | fuel + 1, lam => if ok (lam + 1) then scanUp ok fuel (lam + 1) else lam

variable {ok : ℤ → Prop} [DecidablePred ok] {lo hi : ℤ}

theorem Probe.isLast_narrow (p : Probe) (hanti : ∀ x y, lo ≤ x → x ≤ y → ok y → ok x)
    (hle : lo ≤ hi) (hok : ok lo) : IsLast ok lo hi (p.narrow ok lo hi) := by
  fun_induction Probe.narrow p ok lo hi with
  | case1 lo hi h hmid ih =>
    have habove := p.above h
    exact (ih (fun x y hx => hanti x y (by omega)) (p.within h) hmid).raise (by omega)
  | case2 lo hi h hmid ih =>
    have habove := p.above h
    exact (ih hanti (by omega) hok).lower hanti (by omega) (p.within h) hmid
  | case3 lo hi h => exact ⟨le_rfl, hle, hok, fun x hx hxhi => absurd hxhi (by omega)⟩

/-- Once an index has passed, the interval starts after the last that did. -/
theorem isLast_closeIn_after {best : ℤ} (hanti : ∀ x y, best ≤ x → x ≤ y → ok y → ok x)
    (hbest : lo = best + 1) (hle : best ≤ hi) (hok : ok best) :
    IsLast ok best hi (closeIn ok lo hi best) := by
  fun_induction closeIn ok lo hi best with
  | case1 lo hi best h hmid ih =>
    have hlast := ih (fun x y hx => hanti x y (by omega)) rfl (by omega) hmid
    exact hlast.raise (by omega)
  | case2 lo hi best h hmid ih =>
    exact (ih hanti hbest (by omega) hok).lower hanti (by omega) (by omega) hmid
  | case3 lo hi best h => exact ⟨le_rfl, hle, hok, fun x hx hxhi => absurd hxhi (by omega)⟩

theorem isLast_closeIn {best : ℤ} (hanti : ∀ x y, lo ≤ x → x ≤ y → ok y → ok x) (hle : lo ≤ hi)
    (hok : ok lo) : IsLast ok lo hi (closeIn ok lo hi best) := by
  fun_induction closeIn ok lo hi best with
  | case1 lo hi best h hmid _ =>
    have hlast := @isLast_closeIn_after ok _ ((lo + hi) / 2 + 1) hi _
      (fun x y hx => hanti x y (by omega)) rfl (by omega) hmid
    exact hlast.raise (by omega)
  | case2 lo hi best h hmid ih =>
    have hne : (lo + hi) / 2 ≠ lo := by
      intro heq
      rw [heq] at hmid
      exact hmid hok
    exact (ih hanti (by omega) hok).lower hanti (by omega) (by omega) hmid
  | case3 lo hi best h => exact absurd hle h

theorem isLast_scanUp (fuel : ℕ) (hanti : ∀ x y, lo ≤ x → x ≤ y → ok y → ok x) (hok : ok lo) :
    IsLast ok lo (lo + fuel) (scanUp ok fuel lo) := by
  induction fuel generalizing lo with
  | zero =>
    rw [scanUp]
    exact ⟨le_rfl, by omega, hok, fun x hx hxhi => absurd hxhi (by omega)⟩
  | succ fuel ih =>
    rw [scanUp]
    split
    · rename_i hnext
      have hlast := (ih (fun x y hx => hanti x y (by omega)) hnext).raise (show lo ≤ lo + 1 by omega)
      have hhi : lo + 1 + (fuel : ℤ) = lo + (fuel + 1 : ℕ) := by
        push_cast
        omega
      rwa [hhi] at hlast
    · rename_i hnext
      refine ⟨le_rfl, by push_cast; omega, hok, fun x hx _ hxok => ?_⟩
      exact hnext (hanti (lo + 1) x (by omega) (by omega) hxok)

end NamespaceIndexer.Lib
