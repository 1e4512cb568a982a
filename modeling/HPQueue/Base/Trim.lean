import HPQueue.Base.Data

/-!
# Blanks around strings

`Data::trimStart`, `trimEnd` and `trim`, each for a `std::string` and for a `char *`, and
`Data::chooseOption`.  A `std::string` is the list of its characters.  A `char *` is a
position in a buffer; the text there ends before the first null character, and `trimEnd`
shortens it by writing another one.

`trimEnd` of a `std::string` narrows the length to an `int`.

## Main results

* `isStripped_trim` — what is left of a string is what lies between its blanks.
* `CharPtr.text_trim` — the same is left of a text in a buffer.
* `chooseOption_spec` — the option that is chosen.
-/

namespace HPQueue

namespace Data

/-- In the locale of a program that sets none. -/
def isspace (c : Char) : Bool := c = ' ' || '\t' ≤ c && c ≤ '\r'

/-- Whether there is a blank at this position. -/
def blankAt (str : List Char) (index : Nat) : Bool := str[index]?.any isspace

/-- `for(--index; index >= 0 && isspace(str[index]); index--);`, from a position to the one
behind the last character that stays. -/
def endLoop (str : List Char) : Nat → Nat
  | 0 => 0
  | index + 1 => if blankAt str index then endLoop str index else index + 1

/-- `for(; index < len && isspace(str[index]); index++);`, with what there is from `index`
on. -/
def startLoop : List Char → Nat → Nat
  | [], index => index
  | c :: rest, index => if isspace c then startLoop rest (index + 1) else index

namespace StdString

def trimEnd (str : List Char) : List Char :=
  let index := Int.bmod str.length (2 ^ 32)
  if 0 < index then
    if blankAt str (index.toNat - 1) then str.take (endLoop str (index.toNat - 1)) else str
  else str

def trimStart (str : List Char) : List Char :=
  if 0 < str.length ∧ blankAt str 0 = true then str.drop (startLoop (str.drop 1) 1) else str

def trim (str : List Char) : List Char := trimStart (trimEnd str)

end StdString

namespace CharPtr

/-- What a pointer into the buffer points to. -/
def text (buffer : List Char) (str : Nat) : List Char := (buffer.drop str).takeWhile (· ≠ '\x00')

def strlen (buffer : List Char) (str : Nat) : Nat := (text buffer str).length

/-- The buffer that `trimEnd` leaves; it returns `str`. -/
def trimEnd (buffer : List Char) (str : Nat) : List Char :=
  let len := strlen buffer str
  if 0 < len ∧ blankAt buffer (str + len - 1) = true then
    buffer.set (str + endLoop (buffer.drop str) (len - 1)) '\x00'
  else buffer

/-- The null character is not a blank. -/
def trimStart (buffer : List Char) (str : Nat) : Nat := startLoop (buffer.drop str) str

def trim (buffer : List Char) (str : Nat) : List Char × Nat :=
  (trimEnd buffer str, trimStart (trimEnd buffer str) str)

end CharPtr

/-! ## What is left -/

/-- What trimming is for. -/
structure IsStripped (str kept : List Char) : Prop where
  between : ∃ before after, str = before ++ kept ++ after ∧ ∀ c ∈ before ++ after, isspace c = true
  first : ∀ c ∈ kept.head?, isspace c = false
  last : ∀ c ∈ kept.getLast?, isspace c = false

/-- The text without the blanks behind it, and in front of it. -/
def strip (str : List Char) : List Char := (str.rdropWhile isspace).dropWhile isspace

variable {str kept : List Char}

theorem isStripped_strip (str : List Char) : IsStripped str (strip str) where
  between := by
    refine ⟨(str.rdropWhile isspace).takeWhile isspace, str.rtakeWhile isspace, ?_, ?_⟩
    · rw [strip, List.takeWhile_append_dropWhile, List.rdropWhile_append_rtakeWhile]
    · intro c hc
      rcases List.mem_append.mp hc with hc | hc
      · exact List.mem_takeWhile_imp hc
      · exact List.mem_rtakeWhile_imp hc
  first := by
    intro c hc
    have hfirst := List.head?_dropWhile_not isspace (str.rdropWhile isspace)
    rw [show ((str.rdropWhile isspace).dropWhile isspace).head? = some c from hc] at hfirst
    exact hfirst
  last := by
    intro c hc
    obtain ⟨before, hbefore⟩ := List.dropWhile_suffix (l := str.rdropWhile isspace) isspace
    have hlast : (str.rdropWhile isspace).getLast? = some c := by
      rw [← hbefore, List.getLast?_append]
      rw [show ((str.rdropWhile isspace).dropWhile isspace).getLast? = some c from hc]
      rfl
    have hne : str.rdropWhile isspace ≠ [] := by
      intro hnil
      rw [hnil] at hlast
      cases hlast
    rw [List.getLast?_eq_some_getLast hne] at hlast
    simpa [Option.some.inj hlast] using List.rdropWhile_last_not isspace str hne

theorem rdropWhile_append {before after : List Char} (h : ∀ c ∈ after, isspace c = true) :
    (before ++ after).rdropWhile isspace = before.rdropWhile isspace := by
  induction after using List.reverseRecOn with
  | nil => rw [List.append_nil]
  | append_singleton after c ih =>
      rw [← List.append_assoc, List.rdropWhile_concat_pos _ _ _ (h c (by simp))]
      exact ih fun c hc => h c (by simp [hc])

/-- There is one way only. -/
theorem IsStripped.eq_strip (h : IsStripped str kept) : kept = strip str := by
  obtain ⟨before, after, rfl, hblank⟩ := h.between
  have hend : (before ++ kept).rdropWhile isspace = before ++ kept ∨ kept = [] := by
    by_cases hkept : kept = []
    · exact .inr hkept
    · left
      rw [List.rdropWhile_eq_self_iff]
      intro hne
      rw [List.getLast_append_of_ne_nil _ hkept]
      simpa using h.last _ (List.getLast?_eq_some_getLast hkept)
  have hbefore : before.dropWhile isspace = [] :=
    List.dropWhile_eq_nil_iff.mpr fun c hc => hblank c (by simp [hc])
  unfold strip
  rw [rdropWhile_append fun c hc => hblank c (by simp [hc])]
  rcases hend with hend | rfl
  · rw [hend, List.dropWhile_append_of_pos fun c hc => hblank c (by simp [hc])]
    cases kept with
    | nil => rfl
    | cons c cs => rw [List.dropWhile_cons_of_neg (by simpa using h.first c rfl)]
  · rw [List.append_nil, List.rdropWhile_eq_nil_iff.mpr fun c hc => hblank c (by simp [hc])]
    rfl

/-! ## What the loops find -/

theorem endLoop_le (str : List Char) (index : Nat) : endLoop str index ≤ index := by
  induction index with
  | zero => exact Nat.le_refl _
  | succ index ih =>
      unfold endLoop
      split
      · omega
      · exact Nat.le_refl _

/-- What is before the position that is found has no blanks behind it. -/
theorem take_endLoop {index : Nat} (h : index ≤ str.length) :
    str.take (endLoop str index) = (str.take index).rdropWhile isspace := by
  induction index with
  | zero => rfl
  | succ index ih =>
      have hget : str[index]? = some (str.get ⟨index, h⟩) := by simp
      have hblank : blankAt str index = isspace (str.get ⟨index, h⟩) := by
        rw [blankAt, hget]
        rfl
      have htake : str.take (index + 1) = str.take index ++ [str.get ⟨index, h⟩] := by
        rw [List.take_add_one, hget]
        rfl
      rw [htake, endLoop, hblank]
      by_cases hspace : isspace (str.get ⟨index, h⟩) = true
      · rw [if_pos hspace, List.rdropWhile_concat_pos _ _ _ hspace]
        exact ih (Nat.le_of_succ_le h)
      · rw [if_neg hspace, List.rdropWhile_concat_neg _ _ _ hspace]
        exact htake

/-- What is behind the position that is found has no blanks in front of it. -/
theorem drop_startLoop (str : List Char) (index : Nat) :
    str.drop (startLoop (str.drop index) index) = (str.drop index).dropWhile isspace := by
  generalize hrest : str.drop index = rest
  induction rest generalizing index with
  | nil => exact hrest
  | cons c rest ih =>
      rw [startLoop]
      by_cases hspace : isspace c = true
      · rw [if_pos hspace, List.dropWhile_cons_of_pos hspace]
        apply ih
        rw [← List.tail_drop, hrest]
        rfl
      · rw [if_neg hspace, List.dropWhile_cons_of_neg hspace]
        exact hrest

namespace StdString

theorem trimEnd_eq (h : str.length < 2 ^ 31) : trimEnd str = str.rdropWhile isspace := by
  have hindex : Int.bmod str.length (2 ^ 32) = str.length :=
    Int.bmod_eq_of_le (by omega) (by omega)
  have hloop : str.take (endLoop str str.length) = str.rdropWhile isspace := by
    rw [take_endLoop (Nat.le_refl _), List.take_length]
  unfold trimEnd
  rw [hindex, ← hloop]
  cases hlength : str.length with
  | zero => simp [endLoop, List.length_eq_zero_iff.mp hlength]
  | succ index =>
      simp only [Int.toNat_natCast, Nat.add_sub_cancel, endLoop]
      split
      · split
        · rfl
        · exact (List.take_of_length_le (Nat.le_of_eq hlength)).symm
      · omega

theorem trimStart_eq (str : List Char) : trimStart str = str.dropWhile isspace := by
  cases str with
  | nil => rfl
  | cons c rest =>
      have hloop := drop_startLoop (c :: rest) 1
      unfold trimStart
      by_cases hspace : isspace c = true
      · rw [if_pos ⟨Nat.succ_pos _, hspace⟩, List.dropWhile_cons_of_pos hspace]
        exact hloop
      · rw [if_neg fun h => hspace h.2, List.dropWhile_cons_of_neg hspace]

theorem trim_eq (h : str.length < 2 ^ 31) : trim str = strip str := by
  rw [trim, trimEnd_eq h, trimStart_eq]
  rfl

end StdString

namespace CharPtr

variable {buffer : List Char} {p : Nat}

/-- The text, and what ends it. -/
theorem drop_eq_text (h : '\x00' ∈ buffer.drop p) :
    ∃ rest, buffer.drop p = text buffer p ++ '\x00' :: rest := by
  have hsplit := List.takeWhile_append_dropWhile (p := (· ≠ '\x00')) (l := buffer.drop p)
  have hfirst := List.head?_dropWhile_not (fun c : Char => decide (c ≠ '\x00')) (buffer.drop p)
  cases hrest : (buffer.drop p).dropWhile (· ≠ '\x00') with
  | nil =>
      rw [hrest, List.append_nil] at hsplit
      rw [← hsplit] at h
      simpa using List.mem_takeWhile_imp h
  | cons c rest =>
      rw [hrest] at hsplit hfirst
      obtain rfl : c = '\x00' := by simpa using hfirst
      exact ⟨rest, hsplit.symm⟩

theorem ne_of_mem_text {c : Char} (h : c ∈ text buffer p) : c ≠ '\x00' := by
  simpa using List.mem_takeWhile_imp h

/-- The loop sees the text only. -/
theorem endLoop_append (str rest : List Char) {index : Nat} (h : index ≤ str.length) :
    endLoop (str ++ rest) index = endLoop str index := by
  induction index with
  | zero => rfl
  | succ index ih =>
      have hblank : blankAt (str ++ rest) index = blankAt str index := by
        rw [blankAt, blankAt, List.getElem?_append_left h]
      rw [endLoop, endLoop, hblank, ih (Nat.le_of_succ_le h)]

theorem takeWhile_append_null {before rest : List Char} (h : ∀ c ∈ before, c ≠ '\x00') :
    (before ++ '\x00' :: rest).takeWhile (· ≠ '\x00') = before := by
  rw [List.takeWhile_append_of_pos (by simpa using h), List.takeWhile_cons_of_neg (by simp),
    List.append_nil]

/-- A text is shortened by a null character. -/
theorem text_set (h : '\x00' ∈ buffer.drop p) {k : Nat}
    (hk : k < (text buffer p).length) :
    text (buffer.set (p + k) '\x00') p = (text buffer p).take k := by
  obtain ⟨rest, hdrop⟩ := drop_eq_text h
  have hset : (buffer.set (p + k) '\x00').drop p =
      (text buffer p).take k ++ '\x00' :: ((text buffer p).drop (k + 1) ++ '\x00' :: rest) := by
    rw [List.drop_set, if_neg (by omega), Nat.add_sub_cancel_left, hdrop,
      List.set_append_left _ _ hk, List.set_eq_take_append_cons_drop, if_pos hk]
    simp
  rw [text, hset]
  exact takeWhile_append_null fun c hc => ne_of_mem_text (List.mem_of_mem_take hc)

theorem text_trimEnd (h : '\x00' ∈ buffer.drop p) :
    text (trimEnd buffer p) p = (text buffer p).rdropWhile isspace := by
  obtain ⟨rest, hdrop⟩ := drop_eq_text h
  have hloop : (text buffer p).take (endLoop (text buffer p) (strlen buffer p)) =
      (text buffer p).rdropWhile isspace := by
    rw [strlen, take_endLoop (Nat.le_refl _), List.take_length]
  rw [← hloop]
  unfold trimEnd
  cases hlength : strlen buffer p with
  | zero =>
      simp only [Nat.lt_irrefl, false_and, if_false]
      rw [List.length_eq_zero_iff.mp hlength]
      rfl
  | succ index =>
      have hindex : index < (text buffer p).length := by
        rw [← strlen, hlength]
        exact Nat.lt_succ_self index
      have hblank : blankAt buffer (p + (index + 1) - 1) = blankAt (text buffer p) index := by
        rw [blankAt, show p + (index + 1) - 1 = p + index from rfl, ← List.getElem?_drop, hdrop,
          List.getElem?_append_left hindex]
        rfl
      simp only [hblank, Nat.succ_pos, true_and, Nat.add_sub_cancel, endLoop]
      split
      · rw [hdrop, endLoop_append _ _ (Nat.le_of_lt hindex)]
        apply text_set h
        exact Nat.lt_of_le_of_lt (endLoop_le _ _) hindex
      · exact (List.take_of_length_le (Nat.le_of_eq hlength)).symm

/-- Blanks are no null characters. -/
theorem takeWhile_dropWhile (str : List Char) :
    (str.dropWhile isspace).takeWhile (· ≠ '\x00') =
      (str.takeWhile (· ≠ '\x00')).dropWhile isspace := by
  induction str with
  | nil => rfl
  | cons c cs ih =>
      by_cases hspace : isspace c = true
      · have hc : c ≠ '\x00' := by
          rintro rfl
          cases hspace
        rw [List.dropWhile_cons_of_pos hspace, ih, List.takeWhile_cons_of_pos (by simpa using hc),
          List.dropWhile_cons_of_pos hspace]
      · rw [List.dropWhile_cons_of_neg hspace]
        by_cases hc : c = '\x00'
        · rw [List.takeWhile_cons_of_neg (by simpa using hc)]
          rfl
        · rw [List.takeWhile_cons_of_pos (by simpa using hc), List.dropWhile_cons_of_neg hspace]

theorem text_trimStart (buffer : List Char) (p : Nat) :
    text buffer (trimStart buffer p) = (text buffer p).dropWhile isspace := by
  rw [text, trimStart, drop_startLoop]
  exact takeWhile_dropWhile _

theorem text_trim (h : '\x00' ∈ buffer.drop p) :
    text (trim buffer p).1 (trim buffer p).2 = strip (text buffer p) := by
  rw [trim, text_trimStart, text_trimEnd h]
  rfl

/-- Nothing but the text is written to. -/
theorem getElem?_trimEnd {i : Nat} (hi : i < p ∨ p + strlen buffer p ≤ i) :
    (trimEnd buffer p)[i]? = buffer[i]? := by
  unfold trimEnd
  simp only
  split
  · rename_i hblank
    have hle := endLoop_le (buffer.drop p) (strlen buffer p - 1)
    exact List.getElem?_set_ne (by omega)
  · rfl

end CharPtr

/-- `trim` leaves of a string what lies between its blanks, and a second time all of it; of
a text in a buffer it leaves the same, and writes to nothing but the text. -/
theorem trim_strips (h : str.length < 2 ^ 31) :
    IsStripped str (StdString.trim str) ∧
      StdString.trim (StdString.trim str) = StdString.trim str ∧
      ∀ buffer p, CharPtr.text buffer p = str → '\x00' ∈ buffer.drop p →
        CharPtr.text (CharPtr.trim buffer p).1 (CharPtr.trim buffer p).2 = StdString.trim str ∧
          ∀ i, i < p ∨ p + str.length ≤ i → (CharPtr.trim buffer p).1[i]? = buffer[i]? := by
  have hstripped := isStripped_strip str
  have hshort : (strip str).length < 2 ^ 31 := by
    obtain ⟨before, after, hstr, -⟩ := hstripped.between
    have hlength := congrArg List.length hstr
    simp only [List.length_append] at hlength
    omega
  have hagain : IsStripped (strip str) (strip str) :=
    ⟨⟨[], [], by simp, by simp⟩, hstripped.first, hstripped.last⟩
  refine ⟨?_, ?_, ?_⟩
  · rwa [StdString.trim_eq h]
  · rw [StdString.trim_eq h, StdString.trim_eq hshort]
    exact hagain.eq_strip.symm
  · rintro buffer p rfl hnull
    refine ⟨?_, fun i hi => CharPtr.getElem?_trimEnd hi⟩
    rw [StdString.trim_eq h]
    exact CharPtr.text_trim hnull

theorem trim_strips_tab :
    StdString.trim [' ', 'a', '\t'] = ['a'] ∧ IsStripped [' ', 'a', '\t'] ['a'] ∧
      CharPtr.trim [' ', 'a', '\t', '\x00'] 0 = ([' ', 'a', '\x00', '\x00'], 1) ∧
      CharPtr.text [' ', 'a', '\x00', '\x00'] 1 = ['a'] := by
  obtain ⟨hstripped, -, htext⟩ := @trim_strips [' ', 'a', '\t'] (by decide)
  obtain ⟨htrimmed, -⟩ := htext [' ', 'a', '\t', '\x00'] 0 (by decide) (by decide)
  exact ⟨by decide, hstripped, by decide, htrimmed⟩

/-! ## Options -/

/-- `trim(str)`, then `tolower` of each character. -/
def normalize (str : List Char) : List Char := (StdString.trim str).map Char.toLower

/-- The loop of `chooseOption`.  The index is an `unsigned int`, and returned as an `int`. -/
def chooseFrom (str : List Char) (i : Nat) : List (List Char) → Int
  | [] => -1
  | option :: options =>
      if str = normalize option then Int.bmod i (2 ^ 32) else chooseFrom str (i + 1) options

def chooseOption (val : List Char) (options : List (List Char)) : Int :=
  chooseFrom (normalize val) 0 options

/-- Up to blanks around them, and case. -/
def Same (val option : List Char) : Prop :=
  (strip val).map Char.toLower = (strip option).map Char.toLower

instance (val option : List Char) : Decidable (Same val option) :=
  inferInstanceAs (Decidable (_ = _))

theorem normalize_eq_iff {val option : List Char} (hval : val.length < 2 ^ 31)
    (hoption : option.length < 2 ^ 31) : normalize val = normalize option ↔ Same val option := by
  rw [normalize, normalize, StdString.trim_eq hval, StdString.trim_eq hoption]
  rfl

/-- The induction is on the options to come. -/
theorem chooseFrom_eq {val : List Char} {options : List (List Char)} {i : Nat}
    (hval : val.length < 2 ^ 31) (hoptions : ∀ option ∈ options, option.length < 2 ^ 31)
    (hcount : i + options.length ≤ 2 ^ 31) :
    chooseFrom (normalize val) i options =
      match options.findIdx? fun option => decide (Same val option) with
      | some k => (i + k : Nat)
      | none => -1 := by
  induction options generalizing i with
  | nil => rfl
  | cons option options ih =>
      rw [List.length_cons] at hcount
      rw [chooseFrom, List.findIdx?_cons]
      by_cases hsame : Same val option
      · rw [if_pos ((normalize_eq_iff hval (hoptions option (by simp))).mpr hsame)]
        simp only [hsame, decide_true, if_true]
        exact Int.bmod_eq_of_le (by omega) (by omega)
      · rw [if_neg fun h => hsame ((normalize_eq_iff hval (hoptions option (by simp))).mp h)]
        rw [ih (fun other hother => hoptions other (by simp [hother])) (by omega)]
        simp only [hsame, decide_false, Bool.false_eq_true, if_false]
        cases options.findIdx? fun option => decide (Same val option) with
        | none => rfl
        | some k =>
            show ((i + 1 + k : Nat) : Int) = ((i + (k + 1) : Nat) : Int)
            rw [Nat.add_assoc, Nat.add_comm 1 k]

/-- The first option that is the same is chosen, and -1 returned if there is none. -/
theorem chooseOption_spec {val : List Char} {options : List (List Char)}
    (hval : val.length < 2 ^ 31) (hoptions : ∀ option ∈ options, option.length < 2 ^ 31)
    (hcount : options.length ≤ 2 ^ 31) :
    chooseOption val options =
      match options.findIdx? fun option => decide (Same val option) with
      | some k => (k : Int)
      | none => -1 := by
  rw [chooseOption, chooseFrom_eq hval hoptions (by omega)]
  simp only [Nat.zero_add]

example : chooseOption ['Y', 'e', 's', ' '] [['n', 'o'], [' ', 'y', 'E', 'S']] = 1 := by
  rw [chooseOption_spec (by decide) (by decide) (by decide)]
  decide

end Data

end HPQueue
