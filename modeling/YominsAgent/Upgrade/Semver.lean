import Mathlib.Logic.Relation
import Mathlib.Tactic.SplitIfs
import YominsAgent.Go.Decimal

/- `upgrade/semver.go`: versions and their order. `isNewer` is the strict
   lexicographic order of the three numbers on the texts `parseVersion` accepts
   (`parseVersion_iff`), so no chain of upgrades comes back to a version. -/
namespace YominsAgent.Upgrade
open Go

inductive VersionError where
  /-- `pre-release version not supported: %q` -/
  | preRelease (v : Str)
  /-- `invalid version %q: expected major.minor.patch` -/
  | invalid (v : Str)
  /-- `invalid version component %q in %q` -/
  | component (p v : Str)
  deriving DecidableEq, Repr

structure Version where
  major : Int
  minor : Int
  patch : Int
  deriving DecidableEq, Repr

def parseComponent (v p : Str) : Except VersionError Int :=
  match atoi p with
  | some n => if n < 0 then .error (.component p v) else .ok n
  | none => .error (.component p v)

/-- Converts `v1.2.3` or `1.2.3`; pre-release suffixes are rejected. -/
def parseVersion (text : Str) : Except VersionError Version :=
  let v := trimPrefix text "v".toList
  if containsAny v "-+".toList then .error (.preRelease v)
  else match splitN ".".toList 3 v with
    | [a, b, c] => do
      let major ← parseComponent v a
      let minor ← parseComponent v b
      let patch ← parseComponent v c
      return ⟨major, minor, patch⟩
    | _ => .error (.invalid v)

inductive CompareError where
  /-- `parse current version: %w` -/
  | current (e : VersionError)
  /-- `parse candidate version: %w` -/
  | candidate (e : VersionError)
  deriving DecidableEq, Repr

/-- The comparison loop of `isNewer`: the first component that differs decides. -/
def newerThan : List (Int × Int) → Bool
  | [] => false
  | (c, n) :: rest => if n > c then true else if n < c then false else newerThan rest

/-- Whether `candidate` is strictly greater than `current`. -/
def isNewer (current candidate : Str) : Except CompareError Bool :=
  match parseVersion current with
  | .error e => .error (.current e)
  | .ok c =>
    match parseVersion candidate with
    | .error e => .error (.candidate e)
    | .ok n => .ok (newerThan [(c.major, n.major), (c.minor, n.minor), (c.patch, n.patch)])

/-! ## The grammar -/

/-- A non-empty run of decimal digits whose value fits an `int`. -/
def Component (p : Str) (n : Int) : Prop :=
  p ≠ [] ∧ (∀ c ∈ p, c.isDigit = true) ∧ n = Nat.ofDigitChars 10 p 0 ∧ n < 2 ^ 63

/-- An optional `v` and three components with dots between them. -/
def Spells (text : Str) (ver : Version) : Prop :=
  ∃ v a b c, (text = v ∨ text = 'v' :: v) ∧ v = a ++ '.' :: (b ++ '.' :: c) ∧
    Component a ver.major ∧ Component b ver.minor ∧ Component c ver.patch

theorem parseComponent_iff {v p : Str} {n : Int} (h : '-' ∉ p ∧ '+' ∉ p) :
    parseComponent v p = .ok n ↔ Component p n := by
  rw [Component, ← atoi_unsigned_iff h, parseComponent]
  cases hval : atoi p with
  | none => simp
  | some m =>
    have hm : ¬ m < 0 := by
      have := ((atoi_unsigned_iff h).mp hval).2.2.1
      omega
    simp [hm]

theorem Component.not_mem {p : Str} {n : Int} (h : Component p n) {c : Char}
    (hc : c.isDigit = false) : c ∉ p :=
  fun hmem => absurd ((h.2.1 c hmem).symm.trans hc) nofun

theorem trimPrefix_v {text v : Str} (hv : v.head? ≠ some 'v') (h : text = v ∨ text = 'v' :: v) :
    trimPrefix text "v".toList = v := by
  rcases h with rfl | rfl
  · cases text with
    | nil => rfl
    | cons c r =>
      have hc : c ≠ 'v' := fun he => hv (congrArg some he)
      simp [trimPrefix, hc.symm]
  · rfl

theorem bind_eq_ok {ε α β : Type} {x : Except ε α} {f : α → Except ε β} {r : β} :
    (x >>= f) = .ok r ↔ ∃ a, x = .ok a ∧ f a = .ok r := by
  cases x <;> simp [bind, Except.bind]

theorem containsAny_sign (v : Str) : containsAny v "-+".toList = false ↔ '-' ∉ v ∧ '+' ∉ v := by
  simp only [containsAny]
  grind

theorem parseVersion_iff {text : Str} {ver : Version} :
    parseVersion text = .ok ver ↔ Spells text ver := by
  simp only [parseVersion]
  constructor
  · intro h
    have htext : text = trimPrefix text "v".toList ∨ text = 'v' :: trimPrefix text "v".toList := by
      cases text with
      | nil => exact .inl rfl
      | cons c r =>
        by_cases hc : 'v' = c
        · exact .inr (by subst hc; rfl)
        · exact .inl (by simp [trimPrefix, hc])
    generalize trimPrefix text "v".toList = v at h htext
    split at h
    · cases h
    next hsign =>
    rw [Bool.not_eq_true, containsAny_sign] at hsign
    split at h
    · next a b c hsplit =>
      obtain ⟨t, -, rfl, hrest⟩ := (splitN_cons_iff (by simp)).mp hsplit
      obtain ⟨t', -, rfl, hlast⟩ := (splitN_cons_iff (by simp)).mp hrest
      cases hlast
      simp only [List.mem_append, List.mem_cons, not_or] at hsign
      simp only [bind_eq_ok] at h
      obtain ⟨x, hx, y, hy, z, hz, h⟩ := h
      cases h
      exact ⟨_, a, b, c, htext, rfl, (parseComponent_iff ⟨hsign.1.1, hsign.2.1⟩).mp hx,
        (parseComponent_iff ⟨hsign.1.2.2.1, hsign.2.2.2.1⟩).mp hy,
        (parseComponent_iff ⟨hsign.1.2.2.2.2, hsign.2.2.2.2.2⟩).mp hz⟩
    · cases h
  · rintro ⟨v, a, b, c, htext, rfl, ha, hb, hc⟩
    have hhead : (a ++ '.' :: (b ++ '.' :: c)).head? ≠ some 'v' := by
      obtain ⟨d, r, rfl⟩ := List.exists_cons_of_ne_nil ha.1
      rintro ⟨⟩
      exact ha.not_mem rfl List.mem_cons_self
    have hsplit : splitN ".".toList 3 (a ++ '.' :: (b ++ '.' :: c)) = [a, b, c] :=
      (splitN_cons_iff (by simp)).mpr ⟨_, ha.not_mem rfl, rfl,
        (splitN_cons_iff (by simp)).mpr ⟨_, hb.not_mem rfl, rfl, rfl⟩⟩
    have hsign : containsAny (a ++ '.' :: (b ++ '.' :: c)) "-+".toList = false := by
      rw [containsAny_sign]
      simp [ha.not_mem, hb.not_mem, hc.not_mem]
    rw [trimPrefix_v hhead htext, hsign, hsplit]
    simp only [Bool.false_eq_true, if_false, bind_eq_ok]
    exact ⟨_, (parseComponent_iff ⟨ha.not_mem rfl, ha.not_mem rfl⟩).mpr ha,
      _, (parseComponent_iff ⟨hb.not_mem rfl, hb.not_mem rfl⟩).mpr hb,
      _, (parseComponent_iff ⟨hc.not_mem rfl, hc.not_mem rfl⟩).mpr hc, rfl⟩

/-! ## The order -/

/-- The lexicographic order of the three numbers. -/
def Version.Before (c n : Version) : Prop :=
  c.major < n.major ∨ c.major = n.major ∧
    (c.minor < n.minor ∨ c.minor = n.minor ∧ c.patch < n.patch)

instance (c n : Version) : Decidable (c.Before n) := inferInstanceAs (Decidable (_ ∨ _))

theorem isNewer_ok {x y : Str} {c n : Version} (hx : parseVersion x = .ok c)
    (hy : parseVersion y = .ok n) : isNewer x y = .ok (decide (c.Before n)) := by
  simp only [isNewer, hx, hy]
  congr 1
  rw [Bool.eq_iff_iff, decide_eq_true_eq, Version.Before]
  simp only [newerThan]
  split_ifs <;> simp <;> omega

theorem Version.not_before_self (c : Version) : ¬ c.Before c := by
  rw [Version.Before]
  omega

theorem Version.Before.trans {a b c : Version} (hab : a.Before b) (hbc : b.Before c) :
    a.Before c := by
  rw [Version.Before] at *
  omega

theorem isNewer_iff {x y : Str} : isNewer x y = .ok true ↔
    ∃ c n, parseVersion x = .ok c ∧ parseVersion y = .ok n ∧ c.Before n := by
  cases hx : parseVersion x with
  | error => simp [isNewer, hx]
  | ok c =>
    cases hy : parseVersion y with
    | error => simp [isNewer, hx, hy]
    | ok n =>
      rw [isNewer_ok hx hy, Except.ok.injEq, decide_eq_true_eq]
      constructor
      · intro h; exact ⟨c, n, rfl, rfl, h⟩
      · rintro ⟨_, _, ⟨⟩, ⟨⟩, h⟩; exact h

theorem isNewer_irrefl (x : Str) : isNewer x x ≠ .ok true := by
  intro h
  obtain ⟨c, n, hc, hn, hlt⟩ := isNewer_iff.mp h
  cases hc.symm.trans hn
  exact c.not_before_self hlt

theorem isNewer_trans {x y z : Str} (hxy : isNewer x y = .ok true) (hyz : isNewer y z = .ok true) :
    isNewer x z = .ok true := by
  obtain ⟨a, b, ha, hb, hab⟩ := isNewer_iff.mp hxy
  obtain ⟨b', c, hb', hc, hbc⟩ := isNewer_iff.mp hyz
  cases hb.symm.trans hb'
  exact isNewer_iff.mpr ⟨a, c, ha, hc, hab.trans hbc⟩

/-- `parseVersion` accepts the grammar and returns its numbers; on what it accepts,
`isNewer` is the strict lexicographic order of the numbers, and no chain of upgrades comes
back to a version. -/
theorem version_grammar_and_order :
    (∀ text ver, parseVersion text = .ok ver ↔ Spells text ver) ∧
    (∀ x y c n, parseVersion x = .ok c → parseVersion y = .ok n →
      isNewer x y = .ok (decide (c.Before n))) ∧
    (∀ c : Version, ¬ c.Before c) ∧
    (∀ a b c : Version, a.Before b → b.Before c → a.Before c) ∧
    (∀ a b : Version, a.Before b ∨ a = b ∨ b.Before a) ∧
    ∀ x y, Relation.TransGen (fun x y => isNewer x y = .ok true) x y →
      parseVersion x ≠ parseVersion y := by
  refine ⟨fun _ _ => parseVersion_iff, fun _ _ _ _ => isNewer_ok, Version.not_before_self,
    fun _ _ _ => Version.Before.trans, ?_, ?_⟩
  · rintro ⟨a, b, c⟩ ⟨a', b', c'⟩
    simp only [Version.Before, Version.mk.injEq]
    omega
  · intro x y hchain
    have hnewer : isNewer x y = .ok true := by
      induction hchain with
      | single h => exact h
      | tail _ h ih => exact isNewer_trans ih h
    intro hsame
    obtain ⟨c, n, hc, hn, hlt⟩ := isNewer_iff.mp hnewer
    cases hc.symm.trans (hsame.trans hn)
    exact c.not_before_self hlt

end YominsAgent.Upgrade
