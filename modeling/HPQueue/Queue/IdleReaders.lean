import HPQueue.Queue.BackReader

/-!
# Readers of an idle queue

Readers come and go while a queue holds no entries.  Each slot from `writeIndex` to
that of the front should be assigned to one reader that waits for it, so that the
next entries are read.  A waiting reader that leaves has its slot taken over by the
front.  When the ring is spanned, further readers join before the front and share a
slot, and count as done with it; such a reader may become the front, and takes over a
slot without starting to wait for it.

## Main results

* `Covered` — every number up to the front's is held by a reader that waits.
* `noHole_iff` — in a run in which no slot is taken over by a front that is done there is
  no hole, and there is none after the next call exactly if it does not do that either.
* `done_front_takes_over` — three readers and two slots.
-/

namespace HPQueue

open Library.Ring Library.Transition

variable {ρ E : Type} [DecidableEq ρ]

namespace SyncQueue

omit [DecidableEq ρ] in
/-- Every slot from `writeIndex` up to that of the front is assigned to exactly one
registered reader that waits for it. -/
def NoHole (s : SyncQueue ρ E) : Prop :=
  ∀ f, s.front = some f → ∀ i : Int, 0 ≤ i → i < s.currentSize →
    (i - s.writeIndex) % s.currentSize ≤ ((s.readers f).index - s.writeIndex) % s.currentSize →
    ∃! r, (s.readers r).inQueue = true ∧ (s.readers r).index = i ∧ (s.readers r).isDone = false

/-- A queue without entries.  Its readers, if it has any, stand in order, the waiting
one before those that share its slot, and leave no hole. -/
structure Idle (n : Nat) (s : SyncQueue ρ E) : Prop where
  size : s.currentSize = n
  empty : s.readIndex = s.writeIndex
  inOrder : ∃ l t base, Numbered n s l t base ∧
    l.Pairwise fun r x => (s.readers r).index = (s.readers x).index → (s.readers x).isDone = true
  noHole : s.NoHole

/-- Readers that join and leave an idle queue. -/
def idleSystem (ρ E : Type) [DecidableEq ρ] (n : Nat) :
    System (SyncQueue ρ E) (QueueCall ρ E) where
  init s := s.Idle n
  step := callStep

/-- The call is no departure of a waiting reader whose slot a front that is done takes over. -/
def FrontWaits (s : SyncQueue ρ E) : QueueCall ρ E → Prop
  | .endAccess r => (s.readers r).inQueue = true → (s.readers r).isDone = false →
      s.front ≠ some r → ∀ f ∈ s.front, (s.readers f).isDone = false
  | _ => True

instance (s : SyncQueue ρ E) : (c : QueueCall ρ E) → Decidable (s.FrontWaits c)
  | .endAccess r => inferInstanceAs (Decidable ((s.readers r).inQueue = true →
      (s.readers r).isDone = false → s.front ≠ some r →
        ∀ f ∈ s.front, (s.readers f).isDone = false))
  | .add _ | .startAccess _ | .remove _ | .resize _ => .isTrue trivial

end SyncQueue

/-- The calls by which readers join and leave. -/
def QueueCall.Moves : QueueCall ρ E → Prop
  | .startAccess _ | .endAccess _ => True
  | _ => False

instance : (c : QueueCall ρ E) → Decidable c.Moves
  | .startAccess _ | .endAccess _ => .isTrue trivial
  | .add _ | .remove _ | .resize _ => .isFalse id

/-- Every number from the base to that of the front is held by a reader that waits,
and the readers that share it stand behind. -/
structure Covered (n : Nat) (s : SyncQueue ρ E) (l : List ρ) (t : ρ → Nat) (base : Nat) : Prop
    extends Numbered n s l t base where
  empty : s.readIndex = s.writeIndex
  covered : ∀ f ∈ l.getLast?, ∀ k, base ≤ k → k ≤ t f →
    ∃ r ∈ l, t r = k ∧ (s.readers r).isDone = false
  first : l.Pairwise fun r x => t r = t x → (s.readers x).isDone = true

namespace Covered

variable {n base : Nat} {s s' : SyncQueue ρ E} {l : List ρ} {t : ρ → Nat} {r : ρ}

omit [DecidableEq ρ] in
/-- Two waiting readers have different numbers. -/
theorem unshared (h : Covered n s l t base) {r x : ρ} (hr : r ∈ l) (hx : x ∈ l)
    (hrd : (s.readers r).isDone = false) (hxd : (s.readers x).isDone = false)
    (heq : t r = t x) : r = x := by
  obtain ⟨p, q, rfl⟩ := List.append_of_mem hr
  have hfirst := List.pairwise_append.mp h.first
  rcases List.mem_append.mp hx with hx | hx
  · simp [hfirst.2.2 x hx r (by simp) heq.symm] at hrd
  · rcases List.mem_cons.mp hx with rfl | hx
    · rfl
    · simp [(List.pairwise_cons.mp hfirst.2.1).1 x hx heq] at hxd

omit [DecidableEq ρ] in
theorem noHole (h : Covered n s l t base) (hn : 0 < n) : s.NoHole := by
  intro f hf i hi0 hin hle
  have hfl : l.getLast? = some f := h.chained.front.symm.trans hf
  have hfm := List.mem_of_getLast? hfl
  have hwrite : s.writeIndex = slot n 0 base := h.empty.symm.trans h.readIndex
  rw [h.size] at hin hle
  rw [h.index f hfm, hwrite, slot_sub_emod 0 (h.low f hfm) (h.lap f hfm), ← hwrite] at hle
  obtain ⟨d, hd⟩ : ∃ d : Nat, (d : Int) = (i - s.writeIndex) % n :=
    ⟨_, Int.toNat_of_nonneg (Int.emod_nonneg _ (by omega))⟩
  have hslot : slot n 0 (base + d) = i := by
    have hsum : slot n 0 (base + d) = (slot n 0 base + d) % n := by
      rw [slot, slot, Int.emod_add_emod]
      congr 1
    rw [hsum, ← hwrite, hd, Int.add_emod_emod, add_sub_cancel, Int.emod_eq_of_lt hi0 hin]
  have hlap := h.lap f hfm
  have hlow : ∀ {x}, x ∈ l → ((s.readers x).index = i ↔ t x = base + d) := by
    intro x hx
    rw [h.index x hx, ← hslot, slot_inj 0 hn (h.low x hx) (h.lap x hx) (by omega) (by omega)]
  obtain ⟨r, hr, htr, hrd⟩ := h.covered f hfl (base + d) (by omega) (by omega)
  refine ⟨r, ⟨h.chained.registered hr, (hlow hr).mpr htr, hrd⟩, ?_⟩
  rintro x ⟨hxin, hxi, hxd⟩
  have hx := (h.chained.inQueue x).mp hxin
  exact h.unshared hx hr hxd hrd (((hlow hx).mp hxi).trans htr.symm)

omit [DecidableEq ρ] in
/-- A number that no waiting reader holds is a hole. -/
theorem hole {f : ρ} {k : Nat} (h : Numbered n s l t base) (hn : 0 < n)
    (hempty : s.readIndex = s.writeIndex) (hf : l.getLast? = some f) (hlow : base ≤ k)
    (hhigh : k ≤ t f) (hnone : ∀ r ∈ l, t r = k → (s.readers r).isDone = true) : ¬ s.NoHole := by
  intro hno
  have hfm := List.mem_of_getLast? hf
  have hlap := h.lap f hfm
  have hwrite : s.writeIndex = slot n 0 base := hempty.symm.trans h.readIndex
  obtain ⟨r, ⟨hin, hri, hrd⟩, -⟩ := hno f (h.chained.front.trans hf) (slot n 0 k)
    (slot_nonneg 0 hn k) (by rw [h.size]; exact slot_lt 0 hn k) (by
      rw [h.size, h.index f hfm, hwrite, slot_sub_emod 0 hlow (by omega),
        slot_sub_emod 0 (h.low f hfm) hlap]
      omega)
  have hr := (h.chained.inQueue r).mp hin
  rw [h.index r hr, slot_inj 0 hn (h.low r hr) (h.lap r hr) hlow (by omega)] at hri
  simp [hnone r hr hri] at hrd

omit [DecidableEq ρ] in
/-- An idle queue is covered. -/
theorem of_idle (h : s.Idle n) (hn : 0 < n) : ∃ l t base, Covered n s l t base := by
  obtain ⟨l, t, base, hl, hfirst⟩ := h.inOrder
  refine ⟨l, t, base, hl, h.empty, ?_, ?_⟩
  · intro f hf k hlow hhigh
    by_contra hnone
    refine hole hl hn h.empty hf hlow hhigh (fun r hr htr => ?_) h.noHole
    by_contra hrd
    exact hnone ⟨r, hr, htr, by simpa using hrd⟩
  · refine hfirst.imp_of_mem fun {r x} hr hx hrx heq => hrx ?_
    rw [hl.index r hr, hl.index x hx, heq]

/-- A reader joins. -/
theorem startAccess (h : Covered n s l t base) (hn : 2 ≤ n) (hr : (s.readers r).inQueue = false)
    (hrun : s.startAccess r = .ok s') : ∃ l' t' base', Covered n s' l' t' base' := by
  have hrl : r ∉ l := fun hm => by simp [h.chained.registered hm] at hr
  have hne : ∀ x ∈ l, x ≠ r := fun x hx he => hrl (he ▸ hx)
  rcases l.eq_nil_or_concat' with rfl | ⟨m, f, hl⟩
  · obtain ⟨u, hrun', hu⟩ := SyncReaderList.add_first h.chained hr
    obtain rfl := Except.ok.inj (hrun.symm.trans hrun')
    refine ⟨_, _, _, h.alone hn hu, by rw [hu.ring]; exact h.empty, ?_, List.pairwise_singleton _ _⟩
    intro f hf k hlow hhigh
    obtain rfl : r = f := by simpa using hf
    rw [Function.update_self] at hhigh
    refine ⟨r, by simp, ?_, by rw [hu.isDone, if_pos rfl]⟩
    rw [Function.update_self]
    omega
  · have hf : l.getLast? = some f := by simp [hl]
    obtain ⟨b, hb⟩ : ∃ b, l.head? = some b := Option.ne_none_iff_exists'.mp (by simp [hl])
    by_cases heq : s.nextIndex (s.readers f).index = (s.readers b).index
    · obtain ⟨m, g, rfl⟩ := Chained.split_of_spans (by rw [h.size]; exact hn) hf hb heq
      obtain ⟨u, hrun', hu⟩ := SyncReaderList.add_spanned h.chained hr hb heq
      obtain rfl := Except.ok.inj (hrun.symm.trans hrun')
      refine ⟨_, _, _, h.joinShared hrl hu, by rw [hu.ring]; exact h.empty, ?_, ?_⟩
      · intro f' hf' k hlow hhigh
        obtain rfl : f = f' := by simpa using hf'
        rw [Function.update_of_ne (hne f (by simp))] at hhigh
        obtain ⟨x, hx, htx, hxd⟩ := h.covered f hf k hlow hhigh
        refine ⟨x, ?_, ?_, ?_⟩
        · simp only [List.mem_append, List.mem_cons] at hx ⊢
          tauto
        · rw [Function.update_of_ne (hne x hx), htx]
        · rw [hu.isDone, if_neg (hne x hx), hxd]
      · -- the newcomer stands behind the reader whose slot it shares
        have hsplit : m ++ [g, f] = (m ++ [g]) ++ [f] := by simp
        have hgf := (List.pairwise_cons.mp (List.pairwise_append.mp h.first).2.1).1 f (by simp)
        rw [show m ++ [g, r, f] = (m ++ [g]) ++ r :: [f] by simp]
        apply pairwise_insert
        · rw [← hsplit]
          refine h.first.imp_of_mem fun {x y} hx hy hxy heq => ?_
          rw [Function.update_of_ne (hne x hx), Function.update_of_ne (hne y hy)] at heq
          rw [hu.isDone, if_neg (hne y hy)]
          exact hxy heq
        · intro x hx heq
          rw [hu.isDone, if_pos rfl]
        · intro x hx hsame
          obtain rfl := List.mem_singleton.mp hx
          rw [Function.update_self, Function.update_of_ne (hne x (by simp))] at hsame
          rw [hu.isDone, if_neg (hne x (by simp))]
          exact hgf hsame
    · obtain ⟨u, hrun', hu⟩ := SyncReaderList.add_front h.chained hr hf hb heq
      obtain rfl := Except.ok.inj (hrun.symm.trans hrun')
      refine ⟨_, _, _, h.joinFront hn hf hb hrl heq hu, by rw [hu.ring]; exact h.empty, ?_, ?_⟩
      · intro f' hf' k hlow hhigh
        obtain rfl : r = f' := by simpa using hf'
        rw [Function.update_self] at hhigh
        rcases Nat.lt_or_ge (t f) k with hlt | hle
        · refine ⟨r, by simp, ?_, by rw [hu.isDone, if_pos rfl]⟩
          rw [Function.update_self]
          omega
        · obtain ⟨x, hx, htx, hxd⟩ := h.covered f hf k hlow hle
          refine ⟨x, by simp [hx], ?_, ?_⟩
          · rw [Function.update_of_ne (hne x hx), htx]
          · rw [hu.isDone, if_neg (hne x hx), hxd]
      · refine List.pairwise_append.mpr ⟨?_, List.pairwise_singleton _ _, ?_⟩
        · refine h.first.imp_of_mem fun {x y} hx hy hxy heq => ?_
          rw [Function.update_of_ne (hne x hx), Function.update_of_ne (hne y hy)] at heq
          rw [hu.isDone, if_neg (hne y hy)]
          exact hxy heq
        · intro x hx y hy heq
          obtain rfl := List.mem_singleton.mp hy
          have hle := h.le_front hf hx
          rw [Function.update_of_ne (hne x hx), Function.update_self] at heq
          omega

omit [DecidableEq ρ] in
/-- Without entries every slot is empty. -/
theorem slotIsEmpty (h : Covered n s l t base) (hn : 0 < n) (hr : r ∈ l) :
    s.slotIsEmpty r = true := by
  have hlow := h.low r hr
  have hlap := h.lap r hr
  rw [SyncQueue.slotIsEmpty, decide_eq_true_iff, ← h.empty]
  simp only [ReaderWriterQueue.adjustIndexForComparison, adjustIndexForComparison_eq_unwrap,
    h.size, h.readIndex, h.index r hr]
  rw [unwrap_slot_le_iff 0 hn (Nat.le_refl _) (by omega) hlow hlap]
  exact hlow

omit [DecidableEq ρ] in
/-- Readers that keep their numbers while another, that nobody needs, leaves. -/
theorem drop (h : Covered n s l t base) {p : List ρ} {isDone : ρ → Bool} (hsub : p.Sublist l)
    (hs' : Relisted s s' p (fun x => (s.readers x).index) isDone s.readIndex)
    (hisDone : ∀ x ∈ p, isDone x = (s.readers x).isDone)
    (hhead : ∀ b ∈ p.head?, t b = base)
    (hheld : ∀ f ∈ p.getLast?, ∀ x ∈ l, t x ≤ t f → (s.readers x).isDone = false → x ∈ p) :
    Covered n s' p t base where
  toNumbered := h.toNumbered.drop hsub hs' hhead
  empty := by
    rw [hs'.ring]
    exact h.empty
  covered := by
    intro f hf k hlow hhigh
    obtain ⟨f', hf'⟩ : ∃ f', l.getLast? = some f' :=
      Option.ne_none_iff_exists'.mp (by
        simpa using List.ne_nil_of_mem (hsub.subset (List.mem_of_getLast? hf)))
    have hle := h.le_front hf' (hsub.subset (List.mem_of_getLast? hf))
    obtain ⟨x, hx, htx, hxd⟩ := h.covered f' hf' k hlow (by omega)
    have hxp := hheld f hf x hx (by omega) hxd
    exact ⟨x, hxp, htx, by rw [hs'.isDone, hisDone x hxp, hxd]⟩
  first := by
    refine (h.first.sublist hsub).imp_of_mem fun {x y} hx hy hxy heq => ?_
    rw [hs'.isDone, hisDone y hy]
    exact hxy heq

/-- A waiting front that takes over a slot waits for it. -/
theorem frontTakesOver {p m : List ρ} {f : ρ} (h : Covered n s (p ++ r :: (m ++ [f])) t base)
    (hrd : (s.readers r).isDone = false) (hfd : (s.readers f).isDone = false)
    (hs' : Relisted s s' (p ++ f :: m)
      (fun x => if x = f then (s.readers r).index else (s.readers x).index)
      (fun x => if x = r then false else (s.readers x).isDone) s.readIndex) :
    Covered n s' (p ++ f :: m) (Function.update t f (t r)) base := by
  obtain ⟨hfr, hf, hr⟩ := ne_of_position h.chained.nodup
  have hfirst := List.pairwise_append.mp h.first
  have hbehind := List.pairwise_cons.mp hfirst.2.1
  have hlast : (p ++ r :: (m ++ [f])).getLast? = some f := by simp [List.getLast?_cons]
  have hmem : ∀ x ∈ p ++ m, x ∈ p ++ r :: (m ++ [f]) ∧ x ≠ f ∧ x ≠ r := by
    intro x hx
    refine ⟨?_, fun he => hf (he ▸ hx), fun he => hr (he ▸ hx)⟩
    simp only [List.mem_append, List.mem_cons] at hx ⊢
    tauto
  -- the front shares its number with no reader behind it
  have hlt : ∀ x ∈ r :: m, t x < t f := by
    intro x hx
    have hle := h.le_front hlast (r := x)
      (by simp only [List.mem_append, List.mem_cons] at hx ⊢; tauto)
    refine Nat.lt_of_le_of_ne hle fun heq => ?_
    have hdone : (s.readers f).isDone = true := by
      rcases List.mem_cons.mp hx with rfl | hx
      · exact hbehind.1 f (by simp) heq
      · exact (List.pairwise_append.mp hbehind.2).2.2 x hx f (by simp) heq
    simp [hdone] at hfd
  refine
    { toNumbered := h.toNumbered.takesOver hs'
      empty := by rw [hs'.ring]; exact h.empty
      covered := ?_
      first := ?_ }
  · intro f' hf' k hlow hhigh
    have hbelow : k < t f := by
      rcases List.eq_nil_or_concat' m with rfl | ⟨m, g, rfl⟩
      · obtain rfl : f = f' := by simpa using hf'
        rw [Function.update_self] at hhigh
        exact Nat.lt_of_le_of_lt hhigh (hlt r (by simp))
      · obtain rfl : g = f' := by simpa [List.getLast?_cons] using hf'
        rw [Function.update_of_ne (hmem g (by simp)).2.1] at hhigh
        exact Nat.lt_of_le_of_lt hhigh (hlt g (by simp))
    obtain ⟨x, hx, htx, hxd⟩ := h.covered f hlast k hlow (Nat.le_of_lt hbelow)
    by_cases hxr : x = r
    · refine ⟨f, by simp, ?_, ?_⟩
      · rw [Function.update_self, ← htx, hxr]
      · rw [hs'.isDone, if_neg hfr, hfd]
    · have hxf : x ≠ f := by
        rintro rfl
        omega
      refine ⟨x, ?_, ?_, ?_⟩
      · simp only [List.mem_append, List.mem_cons, List.not_mem_nil] at hx ⊢
        tauto
      · rw [Function.update_of_ne hxf, htx]
      · rw [hs'.isDone, if_neg hxr, hxd]
  · apply pairwise_insert
    · have hsub : (p ++ m).Sublist (p ++ r :: (m ++ [f])) :=
        (List.Sublist.refl p).append ((List.sublist_append_left m [f]).cons r)
      refine (h.first.sublist hsub).imp_of_mem fun {x y} hx hy hxy heq => ?_
      rw [Function.update_of_ne (hmem x hx).2.1, Function.update_of_ne (hmem y hy).2.1] at heq
      rw [hs'.isDone, if_neg (hmem y hy).2.2]
      exact hxy heq
    · intro x hx heq
      rw [Function.update_of_ne (hmem x (by simp [hx])).2.1, Function.update_self] at heq
      simp [hfirst.2.2 x hx r (by simp) heq] at hrd
    · intro x hx heq
      rw [Function.update_of_ne (hmem x (by simp [hx])).2.1, Function.update_self] at heq
      rw [hs'.isDone, if_neg (hmem x (by simp [hx])).2.2]
      exact hbehind.1 x (by simp [hx]) heq

/-- A reader leaves, and no slot is taken over by a front that is done. -/
theorem endAccess (h : Covered n s l t base) (hn : 0 < n) (hr : r ∈ l)
    (hwaits : s.FrontWaits (.endAccess r : QueueCall ρ E)) (hrun : s.endAccess r = .ok s') :
    ∃ l' t' base', Covered n s' l' t' base' := by
  rcases Tickets.position hr with rfl | ⟨m, g, rfl⟩ | ⟨p, m, f, rfl⟩
  · obtain ⟨u, hrun', hu⟩ := SyncReaderList.remove_lone h.chained
    obtain rfl := Except.ok.inj (hrun.symm.trans hrun')
    rw [h.slotIsEmpty hn hr, Bool.not_true, Bool.and_false] at hu
    exact ⟨[], t, base, h.drop (p := []) (by simp) hu (by simp) (by simp) (by simp)⟩
  · obtain ⟨u, hrun', hu⟩ := SyncReaderList.remove_front h.chained
    obtain rfl := Except.ok.inj (hrun.symm.trans hrun')
    have hsplit : m ++ [g, r] = (m ++ [g]) ++ [r] := by simp
    have hnd := h.chained.nodup
    rw [hsplit] at hnd
    have hne : ∀ x ∈ m ++ [g], x ≠ r := fun x hx he =>
      (List.nodup_append.mp hnd).2.2 x hx r (by simp) he
    refine ⟨m ++ [g], t, base, h.drop (by simp) hu (fun x hx => if_neg (hne x hx)) ?_ ?_⟩
    · intro b hb
      refine h.head b ?_
      cases m <;> simpa using hb
    · intro f hf x hx hle hxd
      obtain rfl : g = f := by simpa using hf
      rw [hsplit] at hx
      refine (List.mem_append.mp hx).resolve_right fun hxr => ?_
      -- a waiting front shares its number with nobody behind it
      obtain rfl := List.mem_singleton.mp hxr
      have hgr := List.pairwise_append.mp h.first
      have hfront := h.le_front (f := x) (by simp) (r := g) (by simp)
      have hdone := (List.pairwise_cons.mp hgr.2.1).1 x (by simp) (by omega)
      simp [hdone] at hxd
  · cases hdone : (s.readers r).isDone with
    | true =>
        obtain ⟨c, q, hq⟩ : ∃ c q, m ++ [f] = c :: q := by cases m <;> simp
        rw [hq] at h
        obtain ⟨u, hrun', hu⟩ := SyncReaderList.remove_done h.chained hdone
        obtain rfl := Except.ok.inj (hrun.symm.trans hrun')
        have hr' := (List.nodup_cons.mp (List.nodup_middle.mp h.chained.nodup)).1
        have hmem : ∀ x, x ∈ p ++ c :: q ↔ x ∈ p ++ r :: c :: q ∧ x ≠ r := by
          intro x
          constructor
          · intro hx
            refine ⟨?_, fun he => hr' (he ▸ hx)⟩
            simp only [List.mem_append, List.mem_cons] at hx ⊢
            tauto
          · rintro ⟨hx, hxr⟩
            simp only [List.mem_append, List.mem_cons] at hx ⊢
            tauto
        refine ⟨p ++ c :: q, t, base, h.drop (by simp) hu (fun x hx => if_neg ((hmem x).mp hx).2)
          ?_ ?_⟩
        · intro b hb
          rcases p with _ | ⟨d, p⟩
          · -- the reader that waits for the first slot stays
            obtain rfl : c = b := by simpa using hb
            obtain ⟨f', hf'⟩ : ∃ f', (r :: c :: q).getLast? = some f' :=
              Option.ne_none_iff_exists'.mp (by simp)
            obtain ⟨x, hx, htx, hxd⟩ := h.covered f' hf' base (Nat.le_refl _)
              (h.low f' (List.mem_of_getLast? hf'))
            have hxr : x ≠ r := by
              rintro rfl
              simp [hdone] at hxd
            have hxq : x ∈ c :: q := (hmem x).mpr ⟨hx, hxr⟩
            have hlow := h.low c (by simp)
            have hsorted := (List.pairwise_cons.mp h.sorted).2
            rcases List.mem_cons.mp hxq with rfl | hxq
            · exact htx
            · have hle := (List.pairwise_cons.mp hsorted).1 x hxq
              omega
          · exact h.head b (by simpa using hb)
        · intro f' hf' x hx hle hxd
          refine (hmem x).mpr ⟨hx, ?_⟩
          rintro rfl
          simp [hdone] at hxd
    | false =>
        obtain ⟨u, hrun', hu⟩ := h.chained.endAccess_waiting hdone
        obtain rfl := Except.ok.inj (hrun.symm.trans hrun')
        have hin := h.chained.registered hr
        have hfront : s.front = some f := h.chained.front.trans (by simp [List.getLast?_cons])
        have hfr : f ≠ r := (ne_of_position h.chained.nodup).1
        have hfd := hwaits hin hdone (fun he => hfr (Option.some.inj (hfront.symm.trans he))) f
          hfront
        exact ⟨_, _, _, h.frontTakesOver hdone hfd hu⟩

/-- A front that is done takes over a slot, and nobody waits for it. -/
theorem endAccess_leaves_hole (h : Covered n s l t base) (hn : 0 < n)
    (hloses : ¬ s.FrontWaits (.endAccess r : QueueCall ρ E)) (hrun : s.endAccess r = .ok s') :
    ¬ s'.NoHole := by
  simp only [SyncQueue.FrontWaits, not_forall] at hloses
  obtain ⟨hin, hrd, hfront, f', hf', hfd⟩ := hloses
  have hr := (h.chained.inQueue r).mp hin
  have hlast := h.chained.front.symm.trans hf'
  rcases Tickets.position hr with rfl | ⟨m, g, rfl⟩ | ⟨p, m, f, rfl⟩
  · exact absurd h.chained.front hfront
  · exact absurd (h.chained.front.trans (by simp)) hfront
  obtain rfl : f = f' := by simpa [List.getLast?_cons] using hlast
  obtain ⟨u, hrun', hu⟩ := h.chained.endAccess_waiting hrd
  obtain rfl := Except.ok.inj (hrun.symm.trans hrun')
  obtain ⟨hfr, hf, hr'⟩ := ne_of_position h.chained.nodup
  have hfirst := List.pairwise_append.mp h.first
  have hbehind := List.pairwise_cons.mp hfirst.2.1
  have hnum := h.toNumbered.takesOver hu
  obtain ⟨f', hf'⟩ : ∃ f', (p ++ f :: m).getLast? = some f' :=
    Option.ne_none_iff_exists'.mp (by simp)
  have hhigh := hnum.le_front hf' (r := f) (by simp)
  rw [Function.update_self] at hhigh
  refine hole hnum hn (by rw [hu.ring]; exact h.empty) hf' (h.low r hr) hhigh ?_
  intro x hx htx
  by_cases hxf : x = f
  · rw [hxf, hu.isDone, if_neg hfr]
    simpa using hfd
  · rw [Function.update_of_ne hxf] at htx
    have hxr : x ≠ r := by
      rintro rfl
      refine hr' ?_
      simp only [List.mem_append, List.mem_cons] at hx ⊢
      tauto
    rw [hu.isDone, if_neg hxr]
    simp only [List.mem_append, List.mem_cons] at hx
    rcases hx with hx | hx | hx
    · simp [hfirst.2.2 x hx r (by simp) htx] at hrd
    · exact absurd hx hxf
    · exact hbehind.1 x (by simp [hx]) htx.symm

end Covered

/-- What one call preserves. -/
theorem Covered.step {n base : Nat} {s s' : SyncQueue ρ E} {l : List ρ} {t : ρ → Nat}
    {c : QueueCall ρ E} (h : Covered n s l t base) (hn : 2 ≤ n) (hmoves : c.Moves)
    (hwaits : s.FrontWaits c) (hstep : s.callStep c s') :
    ∃ l' t' base', Covered n s' l' t' base' := by
  cases c with
  | startAccess r => exact h.startAccess hn hstep.1 hstep.2
  | endAccess r =>
      cases hr : (s.readers r).inQueue with
      | false =>
          obtain rfl := Except.ok.inj ((SyncReaderList.remove_unregistered hr).symm.trans hstep)
          exact ⟨l, t, base, h⟩
      | true => exact h.endAccess (by omega) ((h.chained.inQueue r).mp hr) hwaits hstep
  | _ => exact hmoves.elim

/-- Readers join and leave an idle queue: in a run in which no front that is done takes over
the slot of a waiting reader there is no hole, and the next call leaves none exactly if it
does not do that either. -/
theorem noHole_iff {n : Nat} (hn : 2 ≤ n) {s : SyncQueue ρ E}
    (h : ((SyncQueue.idleSystem ρ E n).restrict fun s c => c.Moves ∧ s.FrontWaits c).Reachable s) :
    s.NoHole ∧ ∀ c s', c.Moves → s.callStep c s' → (s'.NoHole ↔ s.FrontWaits c) := by
  obtain ⟨l, t, base, hcovered⟩ : ∃ l t base, Covered n s l t base := by
    apply h.invariant (I := fun s => ∃ l t base, Covered n s l t base)
    · exact fun hs => Covered.of_idle hs (by omega)
    · rintro s c s' ⟨l, t, base, hs⟩ ⟨hstep, hmoves, hwaits⟩
      exact hs.step hn hmoves hwaits hstep
  refine ⟨hcovered.noHole (by omega), fun c s' hmoves hstep => ⟨fun hs' => ?_, fun hwaits => ?_⟩⟩
  · by_contra hloses
    cases c with
    | endAccess r => exact hcovered.endAccess_leaves_hole (by omega) hloses hstep hs'
    | startAccess r => exact hloses trivial
    | _ => exact hmoves
  · obtain ⟨_, _, _, hs'⟩ := hcovered.step hn hmoves hwaits hstep
    exact hs'.noHole (by omega)

omit [DecidableEq ρ] in
/-- A queue without entries and without readers is idle, wherever its indices are. -/
theorem SyncQueue.Idle.of_no_readers {n : Nat} {s : SyncQueue ρ E} (hsize : s.currentSize = n)
    (hempty : s.readIndex = s.writeIndex) (h0 : 0 ≤ s.readIndex) (hlt : s.readIndex < n)
    (hchained : Chained s []) : s.Idle n where
  size := hsize
  empty := hempty
  inOrder := by
    refine ⟨[], fun _ => 0, s.readIndex.toNat, .nil hchained hsize ?_ _, List.Pairwise.nil⟩
    rw [slot, Int.toNat_of_nonneg h0, Int.add_zero, Int.emod_eq_of_lt h0 hlt]
  noHole := by
    intro f hf
    have hfront := hchained.front.symm.trans hf
    simp at hfront

omit [DecidableEq ρ] in
theorem SyncQueue.Idle.new {n : Nat} (hn : 0 < n) (dataEntries : ProcessingQueueDataArray E) :
    (SyncQueue.new ρ n dataEntries).Idle n :=
  .of_no_readers rfl rfl (Int.le_refl 0) (by
    show (0 : Int) < n
    omega) (Represents.new (n := n) dataEntries).chained

/-- Four readers and three slots: the second leaves, and the front takes its slot over. -/
theorem noHole_of_leaver :
    ∃ s : SyncQueue (Fin 4) Nat, s.front = some 3 ∧ (s.readers 3).isDone = true ∧
      (s.readers 2).index = 1 ∧ s.NoHole ∧
      ∀ c s', c.Moves → s.callStep c s' → (s'.NoHole ↔ s.FrontWaits c) := by
  have hcalls : (System.follow (SyncQueue.call 0) (fun s c => c.Moves ∧ s.FrontWaits c)
      (SyncQueue.new (Fin 4) 3 (.uniform Nat 8))
      [.startAccess 0, .startAccess 1, .startAccess 2, .startAccess 3, .endAccess 1]).map
      (fun s => (s.front, (s.readers 3).isDone, (s.readers 2).index)) =
      some (some 3, true, 1) := by decide
  obtain ⟨s, hcalls, hs⟩ := Option.map_eq_some_iff.mp hcalls
  simp only [Prod.mk.injEq] at hs
  exact ⟨s, hs.1, hs.2.1, hs.2.2, noHole_iff (by decide)
    (SyncQueue.reachable_follow rfl 0 _ (.start (.new (by decide) _)) hcalls)⟩

/-- Two slots and three readers, the third of which shares the first slot: the second
leaves, then the first, and nobody waits for the slot of the third. -/
theorem done_front_takes_over :
    ∃ s : SyncQueue (Fin 3) Nat,
      ((SyncQueue.idleSystem (Fin 3) Nat 2).restrict fun _ c => c.Moves).Reachable s ∧
      s.front = some 2 ∧ (s.readers 2).inQueue = true ∧ ¬ s.NoHole := by
  have hcalls : (System.follow (SyncQueue.call 0) (fun _ c => c.Moves)
      (SyncQueue.new (Fin 3) 2 (.uniform Nat 8))
      [.startAccess 0, .startAccess 1, .startAccess 2, .endAccess 1, .endAccess 0]).map
      (fun s => (s.front, s.currentSize, [s.writeIndex, (s.readers 2).index],
        [(s.readers 0).inQueue, (s.readers 1).inQueue, (s.readers 2).inQueue,
          (s.readers 2).isDone])) =
      some (some 2, 2, [0, 0], [false, false, true, true]) := by decide
  obtain ⟨s, hcalls, hs⟩ := Option.map_eq_some_iff.mp hcalls
  simp only [Prod.mk.injEq, List.cons.injEq, and_true] at hs
  obtain ⟨hfront, hsize, ⟨hwrite, hindex⟩, hin0, hin1, hin2, hdone⟩ := hs
  refine ⟨s, SyncQueue.reachable_follow rfl 0 _ (.start (.new (by decide) _)) hcalls, hfront, hin2,
    ?_⟩
  intro hno
  obtain ⟨r, ⟨hrin, -, hrd⟩, -⟩ := hno 2 hfront 0 (Int.le_refl 0) (by omega) (by
    rw [hwrite, hindex])
  match r with
  | 0 => simp [hin0] at hrin
  | 1 => simp [hin1] at hrin
  | 2 => simp [hdone] at hrd

end HPQueue
