import LightweightOs.Words
import Mathlib.Tactic.IntervalCases

/-!
# The shape of a line being typed

A tab fills four places of a line, except near the end, where it may fill three;
erasing a tab always takes four.  The index stays in the row all the same,
because erasing moves only between aligned places: those that tabs typed from
the start of the line, or from the place after the automatic newline, can reach
with other characters in between.
-/

namespace LightweightOs

/-- The places of a line that erasing characters can come back to. -/
inductive Aligned (row : Int → Byte) : Int → Prop where
  | early {n : Int} : 0 ≤ n → n < maxLine → n % 4 = 0 → Aligned row n
  | late {n : Int} : maxLine ≤ n → n % 4 = 1 → Aligned row n
  | char {n : Int} : Aligned row n → row n ≠ tab → Aligned row (n + 1)
  | tabs {n : Int} : Aligned row n → (∀ k, n ≤ k → k < n + 4 → row k = tab) →
      Aligned row (n + 4)

/-- A line of `index` characters in a row of the keyboard buffer. -/
structure LineShape (row : Int → Byte) (index : Int) : Prop where
  low : 0 ≤ index
  high : index ≤ bufferSize - 1
  aligned : Aligned row index
  chars : ∀ n, 0 ≤ n → n < index → row n ≠ tab → Aligned row n
  newlines : ∀ n, 0 ≤ n → n < index → row n = newline → n = maxLine

namespace Aligned

variable {row other : Int → Byte} {n : Int}

theorem zero (row : Int → Byte) : Aligned row 0 :=
  .early (by decide) (by decide) (by decide)

theorem nonneg (aligned : Aligned row n) : 0 ≤ n := by
  induction aligned with
  | early low _ _ => exact low
  | late low _ =>
      simp only [maxLine] at low
      omega
  | char _ _ before => omega
  | tabs _ _ before => omega

theorem congr (aligned : Aligned row n)
    (same : ∀ k, 0 ≤ k → k < n → other k = row k) : Aligned other n := by
  induction aligned with
  | early low high even => exact .early low high even
  | late low odd => exact .late low odd
  | char before notTab induction =>
      have low := before.nonneg
      apply Aligned.char
      · exact induction fun k nonneg below => same k nonneg (by omega)
      · rwa [same _ low (by omega)]
  | tabs before allTabs induction =>
      have low := before.nonneg
      apply Aligned.tabs
      · exact induction fun k nonneg below => same k nonneg (by omega)
      · intro k atLeast below
        rw [same k (by omega) below]
        exact allTabs k atLeast below

/-- Overwriting the first character with `'\0'` keeps the places aligned. -/
theorem clobber (aligned : Aligned row n) (first : other 0 = nul)
    (same : ∀ k, 0 < k → k < n → other k = row k) : Aligned other n := by
  induction aligned with
  | early low high even => exact .early low high even
  | late low odd => exact .late low odd
  | @char m before notTab induction =>
      have low := before.nonneg
      apply Aligned.char
      · exact induction fun k positive below => same k positive (by omega)
      · rcases low.eq_or_lt with isZero | positive
        · rw [← isZero, first]
          decide
        · rwa [same m positive (by omega)]
  | @tabs m before allTabs induction =>
      have low := before.nonneg
      rcases low.eq_or_lt with isZero | positive
      · rw [← isZero]
        exact .early (by decide) (by decide) (by decide)
      · apply Aligned.tabs
        · exact induction fun k positive below => same k positive (by omega)
        · intro k atLeast below
          rw [same k (by omega) below]
          exact allTabs k atLeast below

/-- A tab before an aligned place begins at an aligned place four before it,
unless the place is the one where a newline is added. -/
theorem before_tab (aligned : Aligned row n) (positive : 0 < n)
    (notWrap : n ≠ maxLine) (isTab : row (n - 1) = tab) : Aligned row (n - 4) := by
  cases aligned with
  | early low high even => exact .early (by omega) (by omega) (by omega)
  | late low odd =>
      simp only [maxLine] at low notWrap
      exact .late (by simp only [maxLine]; omega) (by omega)
  | @char m before notTab =>
      rw [Int.add_sub_cancel] at isTab
      exact (notTab isTab).elim
  | @tabs m before allTabs => simpa using before

end Aligned

namespace LineShape

variable {row other : Int → Byte} {index : Int}

theorem zero (row : Int → Byte) : LineShape row 0 where
  low := le_rfl
  high := by decide
  aligned := .zero row
  chars := by
    intro n nonneg below
    omega
  newlines := by
    intro n nonneg below
    omega

theorem shorten (shape : LineShape row index) {n : Int} (aligned : Aligned row n)
    (shorter : n ≤ index) (same : ∀ k, 0 ≤ k → k < n → other k = row k) :
    LineShape other n where
  low := aligned.nonneg
  high := shorter.trans shape.high
  aligned := aligned.congr same
  chars := by
    intro k nonneg below notTab
    rw [same k nonneg below] at notTab
    apply (shape.chars k nonneg (by omega) notTab).congr
    exact fun j nonneg below => same j nonneg (by omega)
  newlines := by
    intro k nonneg below isNewline
    rw [same k nonneg below] at isNewline
    exact shape.newlines k nonneg (by omega) isNewline

theorem congr (shape : LineShape row index)
    (same : ∀ k, 0 ≤ k → k < index → other k = row k) : LineShape other index :=
  shape.shorten shape.aligned le_rfl same

theorem append (shape : LineShape row index) (room : index < bufferSize - 1)
    (notTab : other index ≠ tab)
    (newlineOnly : other index = newline → index = maxLine)
    (same : ∀ k, 0 ≤ k → k < index → other k = row k) :
    LineShape other (index + 1) := by
  have kept := shape.congr same
  constructor
  case low => exact kept.low.trans (by omega)
  case high => omega
  case aligned => exact .char kept.aligned notTab
  case chars =>
    intro n nonneg below isChar
    rcases (Int.lt_add_one_iff.mp below).eq_or_lt with rfl | inside
    · exact kept.aligned
    · exact kept.chars n nonneg inside isChar
  case newlines =>
    intro n nonneg below isNewline
    rcases (Int.lt_add_one_iff.mp below).eq_or_lt with rfl | inside
    · exact newlineOnly isNewline
    · exact kept.newlines n nonneg inside isNewline

theorem appendTabs (shape : LineShape row index) {n : Int} (atLeast : index ≤ n)
    (room : n ≤ bufferSize - 1) (aligned : Aligned other n)
    (allTabs : ∀ k, index ≤ k → k < n → other k = tab)
    (same : ∀ k, 0 ≤ k → k < index → other k = row k) : LineShape other n := by
  have kept := shape.congr same
  have notNewline : tab ≠ newline := by decide
  constructor
  case low => exact kept.low.trans atLeast
  case high => exact room
  case aligned => exact aligned
  case chars =>
    intro k nonneg below isChar
    rcases lt_or_ge k index with inside | outside
    · exact kept.chars k nonneg inside isChar
    · exact (isChar (allTabs k outside below)).elim
  case newlines =>
    intro k nonneg below isNewline
    rcases lt_or_ge k index with inside | outside
    · exact kept.newlines k nonneg inside isNewline
    · rw [allTabs k outside below] at isNewline
      exact (notNewline isNewline).elim

theorem erase (shape : LineShape row index) (positive : 0 < index)
    (notTab : row (index - 1) ≠ tab)
    (same : ∀ k, 0 ≤ k → k < index - 1 → other k = row k) :
    LineShape other (index - 1) :=
  shape.shorten (shape.chars _ (by omega) (by omega) notTab) (by omega) same

theorem eraseTab (shape : LineShape row index) (positive : 0 < index)
    (notWrap : index ≠ maxLine) (isTab : row (index - 1) = tab)
    (same : ∀ k, 0 ≤ k → k < index - 4 → other k = row k) :
    LineShape other (index - 4) :=
  shape.shorten (shape.aligned.before_tab positive notWrap isTab) (by omega) same

theorem eraseNewline (shape : LineShape row index) (positive : 0 < index)
    (isNewline : row (index - 1) = newline)
    (same : ∀ k, 0 ≤ k → k < index - 2 → other k = row k) :
    LineShape other (index - 2) := by
  have place := shape.newlines _ (by omega) (by omega) isNewline
  have isIndex : index - 2 = 72 := by
    simp only [maxLine] at place
    omega
  apply shape.shorten _ (by omega) same
  rw [isIndex]
  exact .early (by decide) (by decide) (by decide)

theorem clobber (shape : LineShape row index) (first : other 0 = nul)
    (same : ∀ k, 0 < k → k < index → other k = row k) : LineShape other index where
  low := shape.low
  high := shape.high
  aligned := shape.aligned.clobber first same
  chars := by
    intro k nonneg below notTab
    rcases nonneg.eq_or_lt with isZero | positive
    · rw [← isZero]
      exact .zero other
    · rw [same k positive below] at notTab
      apply (shape.chars k nonneg below notTab).clobber first
      exact fun j positive below => same j positive (by omega)
  newlines := by
    intro k nonneg below isNewline
    rcases nonneg.eq_or_lt with isZero | positive
    · rw [← isZero, first] at isNewline
      exact absurd isNewline (by decide)
    · rw [same k positive below] at isNewline
      exact shape.newlines k nonneg below isNewline

end LineShape

end LightweightOs
