import Chevalier.Foundations.Posix

/-!
# Name patterns

`sql_like_match` walks over the bytes of a pattern and of a name and keeps one place to return to:
the last percent sign it has passed, with the place in the name where what follows the sign was last
tried. `Like` is what a pattern means.

* `like_of_retry`: it is enough to return to the last percent sign.
* `sqlLikeMatch_iff`: the loop ends, and a name is accepted exactly if it is like the pattern.
-/

namespace Chevalier.Vfs

open List Posix

/-- Any bytes. -/
def percent : UInt8 := 37

/-- Any one byte. -/
def underscore : UInt8 := 95

/-- The place to return to: what follows the last percent sign, and the name from where that was
tried last. -/
abbrev Star := Option (Bytes × Bytes)

/-- The loop, over what is left of the pattern and of the name. -/
def matchInner : Nat → Bytes → Bytes → Star → Option Bool
  | 0, _, _, _ => none
  | _ + 1, pat, [], _ => some (pat.all (· = percent))
  | fuel + 1, pat, byte :: rest, star =>
    let retry :=
      match star with
      | some (after, tried) => matchInner fuel after tried.tail (some (after, tried.tail))
      | none => some false
    match pat with
    | [] => retry
    | sign :: pat =>
      if sign = percent then matchInner fuel pat (byte :: rest) (some (pat, byte :: rest))
      else if sign = underscore ∨ sign = byte then matchInner fuel pat rest star
      else retry

/-- The fuel does not run out (`sqlLikeMatch_iff`). -/
def sqlLikeMatch (pattern name : String) : Option Bool :=
  let pat := pattern.toUTF8.toList
  let bytes := name.toUTF8.toList
  matchInner ((bytes.length + 2) * (pat.length + 1)) pat bytes none

/-- What a pattern means. -/
def Like : Bytes → Bytes → Prop
  | [], name => name = []
  | sign :: pat, name =>
    if sign = percent then ∃ rest, rest <:+ name ∧ Like pat rest
    else ∃ byte rest, name = byte :: rest ∧ (sign = underscore ∨ sign = byte) ∧ Like pat rest

variable {pat after w name tried rest : Bytes} {sign byte : UInt8} {star : Star} {n fuel : Nat}

theorem like_percent : Like (percent :: pat) name ↔ ∃ rest, rest <:+ name ∧ Like pat rest := by
  simp [Like]

theorem like_sign (h : sign ≠ percent) : Like (sign :: pat) name ↔
    ∃ byte rest, name = byte :: rest ∧ (sign = underscore ∨ sign = byte) ∧ Like pat rest := by
  simp [Like, h]

theorem Like.suffix (h : Like (percent :: pat) rest) (hs : rest <:+ name) :
    Like (percent :: pat) name := by
  obtain ⟨t, ht, h⟩ := like_percent.1 h
  exact like_percent.2 ⟨t, ht.trans hs, h⟩

/-- What follows a percent sign is tried at the beginning, and then further on. -/
theorem like_percent_tail :
    Like (percent :: pat) name ↔ Like pat name ∨ Like (percent :: pat) name.tail := by
  rw [like_percent]
  constructor
  · rintro ⟨rest, hs, h⟩
    cases name with
    | nil => exact .inl (suffix_nil.1 hs ▸ h)
    | cons byte name =>
      obtain rfl | hs := suffix_cons_iff.1 hs
      · exact .inl h
      · exact .inr (like_percent.2 ⟨rest, hs, h⟩)
  · rintro (h | h)
    · exact ⟨name, suffix_rfl, h⟩
    · exact like_percent.1 (h.suffix (tail_suffix name))

theorem like_nil : Like pat [] ↔ pat.all (· = percent) = true := by
  induction pat with
  | nil => simp [Like]
  | cons sign pat ih =>
    by_cases hs : sign = percent
    · simp [hs, like_percent, ih]
    · simp [like_sign hs, hs]

/-- Signs other than percent signs take a byte each. -/
theorem Like.of_append (hw : percent ∉ w) (h : Like (w ++ pat) name) :
    ∃ rest, rest <:+ name ∧ rest.length + w.length = name.length ∧ Like pat rest := by
  induction w generalizing name with
  | nil => exact ⟨name, suffix_rfl, rfl, h⟩
  | cons sign w ih =>
    rw [mem_cons, not_or] at hw
    obtain ⟨byte, name, rfl, -, h⟩ := (like_sign (Ne.symm hw.1)).1 h
    obtain ⟨rest, hs, hl, h⟩ := ih hw.2 h
    exact ⟨rest, hs.trans (suffix_cons ..), by simp; omega, h⟩

/-- The pattern was tried from some place on, without a percent sign up to where it is now. -/
def Resumes (n : Nat) (pat name : Bytes) : Star → Prop
  | none => True
  | some (after, tried) => after.length ≤ n ∧ ∃ w, after = w ++ pat ∧ percent ∉ w ∧ name <:+ tried ∧
    name.length + w.length = tried.length

/-- What is still to be found: the name is like the pattern, or it is like what follows the percent
sign further on. -/
def Goal (pat name : Bytes) : Star → Prop
  | none => Like pat name
  | some (after, tried) => Like pat name ∨ Like (percent :: after) tried.tail

/-- Where what follows the percent sign is found further on, what is left of the pattern is found in
what is left of the name, further on. -/
theorem like_of_retry (hr : Resumes n pat name (some (after, tried)))
    (h : Like (percent :: after) tried.tail) : ∃ rest, rest <:+ name ∧ Like pat rest := by
  obtain ⟨-, w, rfl, hw, hs, hl⟩ := hr
  obtain ⟨found, hf, h⟩ := like_percent.1 h
  obtain ⟨rest, hrest, hlen, h⟩ := h.of_append hw
  have hle := hf.length_le
  rw [length_tail] at hle
  refine ⟨rest, suffix_of_suffix_length_le ?_ hs (by omega), h⟩
  exact hrest.trans (hf.trans (tail_suffix tried))

/-- The earlier percent sign is given up where the pattern is found as well as further on. -/
theorem goal_iff_like (hr : Resumes n pat name star)
    (h : ∀ rest, rest <:+ name → Like pat rest → Like pat name) :
    Goal pat name star ↔ Like pat name := by
  cases star with
  | none => rfl
  | some place =>
    refine or_iff_left_of_imp fun hl => ?_
    obtain ⟨rest, hs, hl⟩ := like_of_retry hr hl
    exact h rest hs hl

theorem goal_sign (hs : sign ≠ percent) (hb : sign = underscore ∨ sign = byte) :
    Goal (sign :: pat) (byte :: rest) star ↔ Goal pat rest star := by
  have hl : Like (sign :: pat) (byte :: rest) ↔ Like pat rest := by
    simp [like_sign hs, and_assoc, hb]
  cases star with
  | none => exact hl
  | some place => exact or_congr_left hl

theorem goal_retry (h : ¬ Like pat name) : Goal pat name (some (after, tried)) ↔
    Goal after tried.tail (some (after, tried.tail)) :=
  (or_iff_right h).trans like_percent_tail

/-- The passes that are left, at most. -/
def passes (n : Nat) (pat name : Bytes) : Star → Nat
  | none => (name.length + 1) * (n + 1) + pat.length
  | some (_, tried) => tried.length * (n + 1) + pat.length

theorem matchInner_iff (hp : pat.length ≤ n) (hr : Resumes n pat name star)
    (hf : passes n pat name star < fuel) :
    ∃ found, matchInner fuel pat name star = some found ∧ (found = true ↔ Goal pat name star) := by
  induction fuel generalizing pat name star with
  | zero => cases hf
  | succ fuel ih =>
    cases name with
    | nil =>
      rw [goal_iff_like hr fun _ hs h => suffix_nil.1 hs ▸ h, like_nil]
      exact ⟨_, rfl, .rfl⟩
    | cons byte rest =>
      -- where the pattern does not go on, it is tried again further on, or the name is refused
      have retry (hno : ¬ Like pat (byte :: rest)) :
          ∃ found, (match star with
            | some (after, tried) => matchInner fuel after tried.tail (some (after, tried.tail))
            | none => some false) = some found ∧ (found = true ↔ Goal pat (byte :: rest) star) := by
        cases star with
        | none => exact ⟨false, rfl, by simpa [Goal] using hno⟩
        | some place =>
          obtain ⟨after, tried⟩ := place
          obtain ⟨hn, w, -, -, -, hl⟩ := hr
          rw [goal_retry hno]
          refine ih hn ⟨hn, [], rfl, by simp, suffix_rfl, rfl⟩ ?_
          cases tried with
          | nil => simp at hl
          | cons byte tried =>
            simp only [passes, length_cons, Nat.add_mul, tail_cons] at hf hn ⊢
            omega
      cases pat with
      | nil => exact retry (by simp [Like])
      | cons sign pat =>
        rw [length_cons] at hp
        simp only [matchInner]
        split_ifs with hs hb
        · subst hs
          rw [goal_iff_like hr fun _ hs h => h.suffix hs, like_percent_tail]
          refine ih (by omega) ⟨by omega, [], rfl, by simp, suffix_rfl, rfl⟩ ?_
          cases star with
          | none => simp only [passes, length_cons, Nat.add_mul] at hf ⊢; omega
          | some place =>
            obtain ⟨-, w, -, -, hsuf, -⟩ := hr
            have := Nat.mul_le_mul_right (n + 1) hsuf.length_le
            simp only [passes, length_cons] at hf this ⊢
            omega
        · rw [goal_sign hs hb]
          cases star with
          | none =>
            refine ih (by omega) trivial ?_
            simp only [passes, length_cons, Nat.add_mul] at hf ⊢
            omega
          | some place =>
            obtain ⟨ha, w, haft, hw, hsuf, hl⟩ := hr
            refine ih (by omega) ⟨ha, w ++ [sign], by simp [haft], ?_, ?_, ?_⟩ ?_
            · simp [hw, Ne.symm hs]
            · exact (suffix_cons ..).trans hsuf
            · simp at hl ⊢; omega
            · simp only [passes, length_cons] at hf ⊢; omega
        · refine retry fun h => ?_
          obtain ⟨_, _, ⟨⟩, hb', -⟩ := (like_sign hs).1 h
          exact hb hb'

/-- **Names are matched as the pattern means**, whatever the pattern and the name are. -/
theorem sqlLikeMatch_iff (pattern name : String) : ∃ found, sqlLikeMatch pattern name = some found ∧
    (found = true ↔ Like pattern.toUTF8.toList name.toUTF8.toList) := by
  refine matchInner_iff le_rfl trivial ?_
  simp only [passes, Nat.add_mul]
  omega

-- An underscore is one byte, not one character.
example : sqlLikeMatch "_" "é" = some false := by decide +kernel

end Chevalier.Vfs
