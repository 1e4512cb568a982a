import Mathlib.Data.List.DropRight
import Mathlib.Algebra.Order.Group.Nat
import Mathlib.Algebra.Order.Ring.Int

/-!
# Line breaks in strings

`Data::indent` and `Data::trimTrailingLFs`.  A `std::string` is the list of its
characters, and positions count from 0.

`indent` edits the string while it scans it: the loop keeps what was scanned
already, indentation included, before `pos`, and `indentLoop_eq` says what it makes
of the rest.  `trimTrailingLFs` scans backwards with an `int`, which its length,
a `size_t`, is narrowed to.
-/

namespace HPQueue

namespace Data

/-- `find("\n", pos)`. -/
def findLF (str : List Char) (pos : Nat) : Option Nat :=
  ((str.drop pos).findIdx? (· == '\n')).map (pos + ·)

/-- `insert(pos, s)`. -/
def insert (str : List Char) (pos : Nat) (s : List Char) : List Char :=
  str.take pos ++ s ++ str.drop pos

/-- `substr(0, n)`; a negative `int` is converted to a count beyond every length. -/
def substr (str : List Char) (n : Int) : List Char := if n < 0 then str else str.take n.toNat

/-! ## Indentation -/

/-- Indents the line that begins at `start`, unless it is empty, and moves `pos`
by what was inserted. -/
def indentAt (indentation : List Char) (start : Nat) (str : List Char) (pos : Nat) :
    List Char × Nat :=
  if str[start]? = some '\n' then (str, pos)
  else (insert str start indentation, pos + indentation.length)

theorem findLF_lt {str : List Char} {pos found : Nat} (h : findLF str pos = some found) :
    pos ≤ found ∧ found < str.length := by
  obtain ⟨k, hk, rfl⟩ := Option.map_eq_some_iff.mp h
  have hlt := (List.findIdx?_eq_some_iff_getElem.mp hk).1
  rw [List.length_drop] at hlt
  omega

/-- What is left to scan stays as long as it is. -/
theorem indentAt_left (indentation : List Char) (start : Nat) (str : List Char) (pos : Nat) :
    (indentAt indentation start str pos).1.length - (indentAt indentation start str pos).2 =
      str.length - pos := by
  unfold indentAt insert
  split
  · rfl
  · simp only [List.length_append, List.length_take, List.length_drop]
    omega

/-- The loop of `indent`. -/
def indentLoop (indentation replacedString : List Char) (pos : Nat) (indentFirstLine : Bool) :
    List Char :=
  match hfind : findLF replacedString pos with
  | none => replacedString
  | some found =>
      if found + 1 = replacedString.length then replacedString
      else
        let first :=
          if indentFirstLine then indentAt indentation 0 replacedString (found + 1)
          else (replacedString, found + 1)
        let next := indentAt indentation first.2 first.1 first.2
        indentLoop indentation next.1 next.2 false
termination_by replacedString.length - pos
decreasing_by
  have hfound := findLF_lt hfind
  rw [indentAt_left]
  split
  · rw [indentAt_left]
    omega
  · show replacedString.length - (found + 1) < _
    omega

def indent (str indentation : List Char) (indentFirstLine indentOnlyMultiLine : Bool) :
    List Char :=
  if str.length = 0 then str
  else if indentFirstLine && !indentOnlyMultiLine then
    let first := indentAt indentation 0 str 0
    indentLoop indentation first.1 first.2 false
  else indentLoop indentation str 0 indentFirstLine

/-- What `indent` is for: a line that is not empty is indented. -/
def indentLine (indentation line : List Char) : List Char :=
  if line = [] then [] else indentation ++ line

/-- Every line after the first is indented, and the first one if `first`. -/
def indentLines (indentation : List Char) (first : Bool) (str : List Char) : List Char :=
  match str.splitOn '\n' with
  | [] => []
  | line :: lines =>
      ['\n'].intercalate
        ((if first then indentLine indentation line else line) ::
          lines.map (indentLine indentation))

variable {indentation : List Char}

theorem indentLines_of_not_mem {line : List Char} (h : '\n' ∉ line) (first : Bool) :
    indentLines indentation first line =
      if first then indentLine indentation line else line := by
  unfold indentLines
  rw [List.splitOn_eq_singleton h]
  simp

theorem indentLines_append {line : List Char} (h : '\n' ∉ line) (first : Bool)
    (rest : List Char) :
    indentLines indentation first (line ++ '\n' :: rest) =
      (if first then indentLine indentation line else line) ++
        '\n' :: indentLines indentation true rest := by
  unfold indentLines
  rw [List.splitOn_append_cons_self_of_not_mem h]
  cases hsplit : rest.splitOn '\n' with
  | nil => exact absurd hsplit (List.splitOn_ne_nil _ _)
  | cons next lines =>
      simp only [List.map_cons, if_true]
      rfl

/-- Indenting the first line too. -/
theorem indentLines_true (str : List Char) :
    indentLines indentation true str =
      if str = [] ∨ str.head? = some '\n' then indentLines indentation false str
      else indentation ++ indentLines indentation false str := by
  by_cases hmem : '\n' ∈ str
  · obtain ⟨line, rest, rfl, hline⟩ := List.eq_append_cons_of_mem hmem
    rw [indentLines_append hline, indentLines_append hline]
    cases line with
    | nil => simp [indentLine]
    | cons c cs =>
        have hc : c ≠ '\n' := fun h => hline (by simp [h])
        simp [indentLine, hc]
  · rw [indentLines_of_not_mem hmem, indentLines_of_not_mem hmem]
    cases str with
    | nil => simp [indentLine]
    | cons c cs =>
        have hc : c ≠ '\n' := fun h => hmem (by simp [h])
        simp [indentLine, hc]

/-! ### What the loop computes -/

theorem indentLoop_of_none {str : List Char} {pos : Nat} {first : Bool}
    (h : findLF str pos = none) : indentLoop indentation str pos first = str := by
  unfold indentLoop
  split
  · rfl
  · rename_i hfound
    rw [h] at hfound
    cases hfound

theorem indentLoop_of_some {str : List Char} {pos found : Nat} {first : Bool}
    (h : findLF str pos = some found) :
    indentLoop indentation str pos first =
      if found + 1 = str.length then str
      else
        let start :=
          if first then indentAt indentation 0 str (found + 1) else (str, found + 1)
        let next := indentAt indentation start.2 start.1 start.2
        indentLoop indentation next.1 next.2 false := by
  conv_lhs => unfold indentLoop
  split
  · rename_i hnone
    rw [h] at hnone
    cases hnone
  · rename_i k hfound
    obtain rfl : found = k := Option.some.inj (h.symm.trans hfound)
    rfl

theorem findLF_of_not_mem (done : List Char) {rest : List Char} (h : '\n' ∉ rest) :
    findLF (done ++ rest) done.length = none := by
  unfold findLF
  rw [List.drop_left]
  simp only [Option.map_eq_none_iff, List.findIdx?_eq_none_iff, beq_eq_false_iff_ne]
  rintro c hc rfl
  exact h hc

theorem findLF_append (done : List Char) {line : List Char} (h : '\n' ∉ line)
    (rest : List Char) :
    findLF (done ++ (line ++ '\n' :: rest)) done.length = some (done.length + line.length) := by
  have hline : line.findIdx? (· == '\n') = none := by
    simp only [List.findIdx?_eq_none_iff, beq_eq_false_iff_ne]
    rintro c hc rfl
    exact h hc
  unfold findLF
  rw [List.drop_left, List.findIdx?_append, hline]
  simp [List.findIdx?_cons]

/-- Indenting the line that is scanned next. -/
theorem indentAt_append (done rest : List Char) :
    indentAt indentation done.length (done ++ rest) done.length =
      if rest.head? = some '\n' then (done ++ rest, done.length)
      else (done ++ indentation ++ rest, (done ++ indentation).length) := by
  have hget : (done ++ rest)[done.length]? = rest.head? := by
    rw [List.getElem?_append_right (Nat.le_refl _), Nat.sub_self, List.head?_eq_getElem?]
  unfold indentAt insert
  rw [hget]
  split
  · rfl
  · rw [List.take_left, List.drop_left, List.length_append]

/-- The loop leaves what was scanned as it is, and indents the lines to come.  The
induction is on what is left to scan; `done` grows by a line and an indentation. -/
theorem indentLoop_eq (done rest : List Char) :
    indentLoop indentation (done ++ rest) done.length false =
      done ++ indentLines indentation false rest := by
  induction hlen : rest.length using Nat.strong_induction_on generalizing done rest with
  | _ len ih =>
      by_cases hmem : '\n' ∈ rest
      · obtain ⟨line, next, rfl, hline⟩ := List.eq_append_cons_of_mem hmem
        have hnext : next.length < len := by
          rw [← hlen, List.length_append, List.length_cons]
          omega
        rw [indentLoop_of_some (findLF_append done hline next), indentLines_append hline,
          indentLines_true]
        by_cases hend : next = []
        · subst hend
          rw [if_pos (by simp [Nat.add_assoc])]
          simp [indentLines_of_not_mem]
        · have hscanned : done ++ (line ++ '\n' :: next) = (done ++ line ++ ['\n']) ++ next := by
            simp
          have hpos : done.length + line.length + 1 = (done ++ line ++ ['\n']).length := by
            simp [Nat.add_assoc]
          have hpositive : 0 < next.length := List.length_pos_iff.mpr hend
          have hmore : ¬ (done ++ line ++ ['\n']).length =
              ((done ++ line ++ ['\n']) ++ next).length := by
            intro heq
            have hlonger := heq.trans List.length_append
            omega
          simp only [hscanned, hpos, if_neg hmore, Bool.false_eq_true, if_false, indentAt_append]
          by_cases hempty : next.head? = some '\n'
          · simp only [if_pos hempty, if_pos (Or.inr hempty : next = [] ∨ _)]
            rw [ih next.length hnext _ next rfl]
            simp
          · have hindented : ¬ (next = [] ∨ next.head? = some '\n') := by simp [hend, hempty]
            simp only [if_neg hempty, if_neg hindented]
            rw [ih next.length hnext _ next rfl]
            simp
      · rw [indentLoop_of_none (findLF_of_not_mem done hmem), indentLines_of_not_mem hmem]
        rfl

/-- The loop, if it has to indent the first line of several. -/
theorem indentLoop_first {line rest : List Char} (hline : '\n' ∉ line) (hrest : rest ≠ []) :
    indentLoop indentation (line ++ '\n' :: rest) 0 true =
      indentLines indentation true (line ++ '\n' :: rest) := by
  have hpositive : 0 < rest.length := List.length_pos_iff.mpr hrest
  have hmore : ¬ line.length + 1 = (line ++ '\n' :: rest).length := by
    simp only [List.length_append, List.length_cons]
    omega
  have hfind : findLF (line ++ '\n' :: rest) 0 = some line.length := by
    simpa using findLF_append [] hline rest
  -- The first line is in its place, and `pos` after its end.
  have hfirst : indentAt indentation 0 (line ++ '\n' :: rest) (line.length + 1) =
      ((indentLine indentation line ++ ['\n']) ++ rest,
        (indentLine indentation line ++ ['\n']).length) := by
    cases line with
    | nil => simp [indentAt, indentLine]
    | cons c cs =>
        have hc : c ≠ '\n' := fun h => hline (by simp [h])
        simp [indentAt, indentLine, insert, hc, Nat.add_comm, Nat.add_left_comm]
  rw [indentLoop_of_some hfind, indentLines_append hline, indentLines_true]
  simp only [if_neg hmore, if_true, hfirst, indentAt_append]
  by_cases hempty : rest.head? = some '\n'
  · simp only [if_pos hempty, if_pos (Or.inr hempty : rest = [] ∨ _)]
    rw [indentLoop_eq]
    simp
  · have hindented : ¬ (rest = [] ∨ rest.head? = some '\n') := by simp [hrest, hempty]
    simp only [if_neg hempty, if_neg hindented]
    rw [indentLoop_eq]
    simp

/-- `indent` indents line by line; with `indentOnlyMultiLine`, the first line only if
a line break is followed by something. -/
theorem indent_eq (str indentation : List Char) (indentFirstLine indentOnlyMultiLine : Bool) :
    indent str indentation indentFirstLine indentOnlyMultiLine =
      indentLines indentation
        (indentFirstLine && (!indentOnlyMultiLine || decide ('\n' ∈ str.dropLast))) str := by
  unfold indent
  by_cases hstr : str = []
  · subst hstr
    simp [indentLines_of_not_mem, indentLine]
  · rw [if_neg (by simp [hstr])]
    have hfalse : indentLoop indentation str 0 false = indentLines indentation false str := by
      simpa using indentLoop_eq [] str
    cases indentFirstLine with
    | false => simpa using hfalse
    | true =>
        cases indentOnlyMultiLine with
        | false =>
            have hstart : indentAt indentation 0 str 0 =
                if str.head? = some '\n' then (str, 0)
                else (indentation ++ str, indentation.length) := by
              simpa using @indentAt_append indentation [] str
            simp only [Bool.not_false, Bool.and_self, if_true, hstart, Bool.true_or]
            rw [indentLines_true]
            by_cases hempty : str.head? = some '\n'
            · rw [if_pos hempty, if_pos (.inr hempty)]
              exact hfalse
            · rw [if_neg hempty, if_neg (by simp [hstr, hempty])]
              exact indentLoop_eq indentation str
        | true =>
            simp only [Bool.not_true, Bool.and_false, Bool.false_eq_true, if_false, Bool.true_and,
              Bool.false_or]
            by_cases hmem : '\n' ∈ str
            · obtain ⟨line, rest, rfl, hline⟩ := List.eq_append_cons_of_mem hmem
              by_cases hrest : rest = []
              · subst hrest
                rw [indentLoop_of_some (by simpa using findLF_append [] hline [])]
                simp [hline, indentLines_append, indentLines_of_not_mem, indentLine]
              · have hfollowed : '\n' ∈ (line ++ '\n' :: rest).dropLast := by
                  simp [List.dropLast_cons_of_ne_nil hrest]
                rw [decide_eq_true hfollowed, indentLoop_first hline hrest]
            · have hnone : '\n' ∉ str.dropLast := fun h => hmem (List.dropLast_subset str h)
              rw [decide_eq_false hnone, indentLines_of_not_mem hmem]
              exact indentLoop_of_none (by simpa using findLF_of_not_mem [] hmem)

/-! ## Trailing line breaks -/

/-- The loop of `trimTrailingLFs`, which does not look at the first character. -/
def trimLoop (str : List Char) : Nat → Nat
  | 0 => 0
  | pos + 1 => if str[pos + 1]? = some '\n' then trimLoop str pos else pos + 1

/-- Where the loop begins, `len - 2` as an `int`. -/
def trimStart (str : List Char) : Int := Int.bmod ((str.length : Int) - 2) (2 ^ 32)

/-- Where the loop ends. -/
def trimPos (str : List Char) : Int :=
  if 0 < trimStart str then trimLoop str (trimStart str).toNat else trimStart str

/-- `trimTrailingLFs`; none if an `int` overflows, which leaves the call undefined. -/
def trimTrailingLFs (str : List Char) (leaveOne : Bool) : Option (List Char) :=
  let len := str.length
  if 0 < len ∧ str[len - 1]? = some '\n' then
    let pos := trimPos str
    if (len : Int) - pos > (if leaveOne then 1 else 0) then
      let count := pos + (if leaveOne then 2 else 1)
      if count < 2 ^ 31 then some (substr str count) else none
    else some str
  else some str

/-- What `trimTrailingLFs` is for: `kept` is the longest part of the string, from its
beginning, that does not end in a line break. -/
structure IsTrimmed (str kept : List Char) : Prop where
  isPrefix : kept <+: str
  unterminated : kept.getLast? ≠ some '\n'
  longest : ∀ other, other <+: str → other.getLast? ≠ some '\n' → other.length ≤ kept.length

/-- Both ways to trim the string do what they are for, and a second time nothing. -/
def TrimsAll (str : List Char) : Prop :=
  (∃ kept, IsTrimmed str kept ∧ trimTrailingLFs str false = some kept ∧
    trimTrailingLFs str true =
      some (if str.getLast? = some '\n' then kept ++ ['\n'] else str)) ∧
  ∀ leaveOne, (trimTrailingLFs str leaveOne).bind (trimTrailingLFs · leaveOne) =
    trimTrailingLFs str leaveOne

/-- The string without its trailing line breaks. -/
def withoutLFs (str : List Char) : List Char := str.rdropWhile (· == '\n')

/-- The strings whose last line break the loop finds its way back from.  The position
it starts from is the length less two, as an `int`: it must not be before the last
character that is kept, and it must be -1 if none is kept. -/
def Trimmable (str : List Char) : Prop :=
  str.getLast? = some '\n' →
    if withoutLFs str = [] then trimStart str = -1
    else
      ((withoutLFs str).length : Int) ≤ trimStart str + 1 ∧ (withoutLFs str).length + 1 < 2 ^ 31

variable {str kept : List Char}

/-- Behind what is kept there are line breaks only. -/
theorem withoutLFs_append (str : List Char) :
    ∃ breaks, str = withoutLFs str ++ breaks ∧ ∀ c ∈ breaks, c = '\n' := by
  refine ⟨str.rtakeWhile (· == '\n'), List.rdropWhile_append_rtakeWhile.symm, ?_⟩
  intro c hc
  simpa using List.mem_rtakeWhile_imp hc

theorem getLast?_withoutLFs (str : List Char) : (withoutLFs str).getLast? ≠ some '\n' := by
  intro h
  have hne : withoutLFs str ≠ [] := by
    intro hnil
    simp [hnil] at h
  have hlast : ¬ ((withoutLFs str).getLast hne == '\n') = true :=
    List.rdropWhile_last_not (· == '\n') str hne
  rw [List.getLast?_eq_some_getLast hne] at h
  exact hlast (by simpa using Option.some.inj h)

theorem isTrimmed_withoutLFs (str : List Char) : IsTrimmed str (withoutLFs str) where
  isPrefix := List.rdropWhile_prefix _ str
  unterminated := getLast?_withoutLFs str
  longest := by
    intro other hprefix hlast
    obtain ⟨breaks, hstr, hbreaks⟩ := withoutLFs_append str
    by_contra hlonger
    -- A longer part ends among the line breaks.
    rw [hstr] at hprefix
    obtain ⟨more, rfl⟩ := List.prefix_of_prefix_length_le (List.prefix_append _ breaks) hprefix
      (Nat.le_of_lt (Nat.not_le.mp hlonger))
    have hmore : more ≠ [] := by
      rintro rfl
      simp at hlonger
    have hmem : more.getLast hmore ∈ breaks :=
      ((List.prefix_append_right_inj _).mp hprefix).subset (List.getLast_mem hmore)
    rw [List.getLast?_append_of_ne_nil _ hmore, List.getLast?_eq_some_getLast hmore] at hlast
    exact hlast (congrArg some (hbreaks _ hmem))

theorem IsTrimmed.eq_withoutLFs (h : IsTrimmed str kept) : kept = withoutLFs str := by
  have hw := isTrimmed_withoutLFs str
  have hle := hw.longest kept h.isPrefix h.unterminated
  have hge := h.longest _ hw.isPrefix hw.unterminated
  exact (List.prefix_of_prefix_length_le h.isPrefix hw.isPrefix hle).eq_of_length
    (Nat.le_antisymm hle hge)

/-- A string that ends in a line break is longer than what is kept of it. -/
theorem length_withoutLFs_lt (hlast : str.getLast? = some '\n') :
    (withoutLFs str).length < str.length := by
  obtain ⟨breaks, hstr, -⟩ := withoutLFs_append str
  cases breaks with
  | nil =>
      rw [List.append_nil] at hstr
      exact absurd (hstr ▸ hlast) (getLast?_withoutLFs str)
  | cons c cs =>
      rw [congrArg List.length hstr]
      simp

theorem getElem?_of_withoutLFs_le {i : Nat} (hle : (withoutLFs str).length ≤ i)
    (hi : i < str.length) : str[i]? = some '\n' := by
  obtain ⟨breaks, hstr, hbreaks⟩ := withoutLFs_append str
  have hlen : str.length = (withoutLFs str).length + breaks.length := by
    conv_lhs => rw [hstr]
    exact List.length_append
  rw [hstr, List.getElem?_append_right hle, List.getElem?_eq_getElem (by omega)]
  exact congrArg some (hbreaks _ (List.getElem_mem _))

theorem getElem?_withoutLFs {i : Nat} (hi : i + 1 = (withoutLFs str).length) :
    str[i]? ≠ some '\n' := by
  obtain ⟨breaks, hstr, -⟩ := withoutLFs_append str
  have hlast := getLast?_withoutLFs str
  rw [List.getLast?_eq_getElem?, ← hi, Nat.add_sub_cancel] at hlast
  rwa [hstr, List.getElem?_append_left (by omega)]

theorem trimLoop_le (str : List Char) (pos : Nat) : trimLoop str pos ≤ pos := by
  induction pos with
  | zero => exact Nat.le_refl _
  | succ pos ih =>
      unfold trimLoop
      split
      · omega
      · exact Nat.le_refl _

/-- The loop finds the last character that is kept, if there is one before `pos`. -/
theorem trimLoop_eq {pos : Nat} (hpos : pos < str.length)
    (hkept : (withoutLFs str).length ≤ pos + 1) :
    trimLoop str pos = (withoutLFs str).length - 1 := by
  induction pos with
  | zero =>
      show 0 = _
      omega
  | succ pos ih =>
      unfold trimLoop
      by_cases hbreak : (withoutLFs str).length ≤ pos + 1
      · rw [if_pos (getElem?_of_withoutLFs_le hbreak hpos)]
        exact ih (by omega) hbreak
      · rw [if_neg (getElem?_withoutLFs (by omega))]
        omega

/-- The loop begins before the end. -/
theorem trimStart_lt (hstr : str ≠ []) : trimStart str + 1 < str.length := by
  have hlen : 0 < str.length := List.length_pos_iff.mpr hstr
  unfold trimStart
  simp only [Int.bmod]
  split <;> omega

theorem trimPos_le (str : List Char) : trimPos str ≤ trimStart str := by
  unfold trimPos
  split
  · have hle := trimLoop_le str (trimStart str).toNat
    omega
  · exact Int.le_refl _

theorem trimPos_eq (hstr : str ≠ []) (hpos : 0 < (withoutLFs str).length)
    (hkept : ((withoutLFs str).length : Int) ≤ trimStart str + 1) :
    trimPos str = (withoutLFs str).length - 1 := by
  have hlt := trimStart_lt hstr
  unfold trimPos
  split
  · rw [trimLoop_eq (by omega) (by omega)]
    omega
  · omega

theorem trimTrailingLFs_of_unterminated (h : str.getLast? ≠ some '\n') (leaveOne : Bool) :
    trimTrailingLFs str leaveOne = some str := by
  unfold trimTrailingLFs
  rw [List.getLast?_eq_getElem?] at h
  exact if_neg fun hlast => h hlast.2

theorem trimTrailingLFs_of_terminated (h : str.getLast? = some '\n') (leaveOne : Bool) :
    trimTrailingLFs str leaveOne =
      let count := trimPos str + (if leaveOne then 2 else 1)
      if count < 2 ^ 31 then some (substr str count) else none := by
  have hstr : str ≠ [] := by
    rintro rfl
    cases h
  have hlast : str[str.length - 1]? = some '\n' := by rwa [← List.getLast?_eq_getElem?]
  have hlt : trimPos str + 1 < str.length := by
    have hstart := trimStart_lt hstr
    have hle := trimPos_le str
    omega
  unfold trimTrailingLFs
  rw [if_pos ⟨List.length_pos_iff.mpr hstr, hlast⟩]
  exact if_pos (by split <;> omega)

theorem take_withoutLFs (str : List Char) :
    str.take (withoutLFs str).length = withoutLFs str :=
  (List.prefix_iff_eq_take.mp (List.rdropWhile_prefix _ str)).symm

theorem substr_withoutLFs (str : List Char) :
    substr str (withoutLFs str).length = withoutLFs str := by
  have hnonneg : ¬ ((withoutLFs str).length : Int) < 0 := by omega
  unfold substr
  rw [if_neg hnonneg, Int.toNat_natCast, take_withoutLFs]

theorem substr_withoutLFs_succ (h : str.getLast? = some '\n') :
    substr str ((withoutLFs str).length + 1) = withoutLFs str ++ ['\n'] := by
  have hlt := length_withoutLFs_lt h
  have hget := getElem?_of_withoutLFs_le (Nat.le_refl _) hlt
  have hnonneg : ¬ ((withoutLFs str).length : Int) + 1 < 0 := by omega
  unfold substr
  rw [if_neg hnonneg, Int.toNat_natCast_add_one, List.take_add_one, hget, take_withoutLFs]
  rfl

/-- What is returned for a string whose trailing line breaks are found. -/
theorem trimTrailingLFs_of_trimmable (h : Trimmable str) (hlast : str.getLast? = some '\n')
    (leaveOne : Bool) :
    trimTrailingLFs str leaveOne =
      some (if leaveOne then withoutLFs str ++ ['\n'] else withoutLFs str) := by
  have hstr : str ≠ [] := by
    rintro rfl
    cases hlast
  have hcond := h hlast
  have hpos : trimPos str = (withoutLFs str).length - 1 ∧ (withoutLFs str).length + 1 < 2 ^ 31 := by
    split at hcond
    · rename_i hnil
      rw [hnil]
      unfold trimPos
      rw [hcond]
      simp
    · rename_i hne
      exact ⟨trimPos_eq hstr (List.length_pos_iff.mpr hne) hcond.1, hcond.2⟩
  rw [trimTrailingLFs_of_terminated hlast]
  cases leaveOne with
  | false =>
      have hcount : trimPos str + 1 = (withoutLFs str).length := by omega
      simp only [Bool.false_eq_true, if_false]
      rw [hcount, if_pos (by omega), substr_withoutLFs]
  | true =>
      have hcount : trimPos str + 2 = (withoutLFs str).length + 1 := by omega
      simp only [if_true]
      rw [hcount, if_pos (by omega), substr_withoutLFs_succ hlast]

theorem withoutLFs_append_LF (h : kept.getLast? ≠ some '\n') :
    withoutLFs (kept ++ ['\n']) = kept := by
  unfold withoutLFs
  rw [List.rdropWhile_concat_pos _ _ _ rfl, List.rdropWhile_eq_self_iff]
  intro hne hlast
  rw [List.getLast?_eq_some_getLast hne] at h
  exact h (congrArg some (by simpa using hlast))

/-- What was trimmed to one line break is trimmed to one line break. -/
theorem Trimmable.withoutLFs_append (h : Trimmable str) (hlast : str.getLast? = some '\n') :
    Trimmable (withoutLFs str ++ ['\n']) := by
  intro _
  rw [withoutLFs_append_LF (getLast?_withoutLFs str)]
  have hcond := h hlast
  unfold trimStart
  split
  · rename_i hnil
    rw [hnil]
    decide
  · rename_i hne
    rw [if_neg hne] at hcond
    rw [List.length_append, List.length_singleton, Int.bmod_eq_of_le (by omega) (by omega)]
    omega

/-- `trimTrailingLFs` does what it is for exactly with the strings that are `Trimmable`. -/
theorem trimsAll_iff (str : List Char) : TrimsAll str ↔ Trimmable str := by
  by_cases hlast : str.getLast? = some '\n'
  · have hstr : str ≠ [] := by
      rintro rfl
      cases hlast
    constructor
    · rintro ⟨⟨kept, htrimmed, hfalse, htrue⟩, -⟩ -
      obtain rfl := htrimmed.eq_withoutLFs
      rw [trimTrailingLFs_of_terminated hlast] at hfalse htrue
      obtain ⟨-, hkept⟩ : _ ∧ substr str (trimPos str + 1) = withoutLFs str := by
        simpa using hfalse
      obtain ⟨hbound, -⟩ : trimPos str + 2 < 2 ^ 31 ∧ _ := by simpa using htrue
      have hlt := trimStart_lt hstr
      have hle := trimPos_le str
      have hlength := congrArg List.length hkept
      unfold substr at hkept hlength
      by_cases hneg : trimPos str + 1 < 0
      · -- The whole string is returned, with its line breaks.
        rw [if_pos hneg] at hkept
        exact absurd (hkept ▸ hlast) (getLast?_withoutLFs str)
      · rw [if_neg hneg, List.length_take] at hlength
        by_cases hnil : withoutLFs str = []
        · rw [if_pos hnil]
          rw [hnil, List.length_nil] at hlength
          have hpos : ¬ 0 < trimStart str := by
            intro hpos
            unfold trimPos at hlength
            rw [if_pos hpos] at hlength
            omega
          unfold trimPos at hlength hneg
          rw [if_neg hpos] at hlength hneg
          omega
        · rw [if_neg hnil]
          omega
    · intro h
      refine ⟨⟨withoutLFs str, isTrimmed_withoutLFs str, ?_, ?_⟩, ?_⟩
      · exact trimTrailingLFs_of_trimmable h hlast false
      · rw [if_pos hlast]
        exact trimTrailingLFs_of_trimmable h hlast true
      · intro leaveOne
        rw [trimTrailingLFs_of_trimmable h hlast]
        cases leaveOne with
        | false => exact trimTrailingLFs_of_unterminated (getLast?_withoutLFs str) false
        | true =>
            show trimTrailingLFs (withoutLFs str ++ ['\n']) true = _
            rw [trimTrailingLFs_of_trimmable (h.withoutLFs_append hlast) (by simp)]
            rw [withoutLFs_append_LF (getLast?_withoutLFs str)]
  · refine ⟨fun _ h => absurd h hlast, fun _ => ⟨⟨str, ?_, ?_, ?_⟩, ?_⟩⟩
    · exact ⟨List.prefix_refl str, hlast, fun other h _ => h.length_le⟩
    · exact trimTrailingLFs_of_unterminated hlast false
    · rw [if_neg hlast]
      exact trimTrailingLFs_of_unterminated hlast true
    · intro leaveOne
      rw [trimTrailingLFs_of_unterminated hlast]
      exact trimTrailingLFs_of_unterminated hlast leaveOne

/-- Of two line breaks, the first is left. -/
theorem not_trimsAll_two : ¬ TrimsAll ['\n', '\n'] := by
  rintro ⟨⟨kept, htrimmed, hfalse, -⟩, -⟩
  have hkept : kept = ['\n'] := by
    have hreturned : trimTrailingLFs ['\n', '\n'] false = some ['\n'] := by decide
    exact (Option.some.inj (hreturned.symm.trans hfalse)).symm
  exact htrimmed.unterminated (by rw [hkept]; rfl)

end Data

end HPQueue
