import HPQueue.Queue.History

/-!
# Readers that leave

`SyncReaderList::remove` takes a reader out of the list and tries to give back
the slot it held.  It does so correctly in some positions and not in others: a
front that has read its slot gives the slot back all the same, the front that
takes over the slot of a reader still waiting may have read its own, and
`readIndex` does not follow a back that leaves.

`leavesSafely` and `drawsSafely` are the conditions under which nothing is lost:
read off the indices and flags of the queue before the call.  In a run all of
whose calls meet them every accepted entry is returned at most once, and none
is skipped.

## Main results

* `Tickets.Sound.leave` — a reader that leaves safely keeps the line sound.
* `Follows.endAccess` — `endAccess` is `leave`.
* `hand_out` — every state of every orderly run.
* `front_returns_twice` — a front that leaves after it has read its slot.
-/

namespace HPQueue

open Library.Ring Library.Transition

variable {ρ E : Type} [DecidableEq ρ]

namespace Tickets

/-- A reader leaves.  The only reader gives the base up with its slot; the front
takes the place and the ticket of a reader that has not read its slot. -/
def leave (T : Tickets ρ E) (r : ρ) : Tickets ρ E :=
  if T.line = [r] then
    { T with line := [], base := if T.isDone r = true then T.ticket r + 1 else T.base }
  else if T.line.getLast? = some r ∨ T.isDone r = true then
    { T with line := T.line.erase r }
  else
    match T.line.getLast? with
    | none => T
    | some f =>
        { T with
          line := T.line.dropLast.map fun x => if x = r then f else x
          ticket := Function.update T.ticket f (T.ticket r) }

/-- The ticket given up is the last of the line, and was not used. -/
structure LeavesSafely (T : Tickets ρ E) (r : ρ) : Prop where
  lone : T.line = [r] → T.isDone r = false → T.ticket r = T.base
  front : ∀ m g, T.line = m ++ [g, r] →
    if T.isDone r = true then T.ticket g = T.ticket r else T.ticket g + 1 = T.ticket r
  waiting : ∀ m g f, T.line = m ++ [g, f] → r ≠ f → T.isDone r = false →
    T.isDone f = false ∧ T.ticket g + 1 = T.ticket f

variable {n : Nat} {T T' : Tickets ρ E}

omit [DecidableEq ρ] in
/-- A line from which a reader departs: nothing unread is lost, and no ticket
that was used is given back. -/
theorem Sound.depart (h : T.Sound n) (haccepted : T'.accepted = T.accepted)
    (hreturned : T'.returned = T.returned) (hmono : T.base ≤ T'.base)
    (hlow : ∀ y ∈ T'.line, T'.base ≤ T'.ticket y) (hnodup : T'.line.Nodup)
    (hsorted : T'.line.Pairwise fun a b => T'.ticket a ≤ T'.ticket b)
    (hrange : ∀ y ∈ T'.line, ∃ x ∈ T.line, T'.ticket y = T.ticket x ∧
      (T'.isDone y = false → T.isDone x = false))
    (hheld : ∀ x ∈ T.line, T.isDone x = false → T.ticket x < T'.next →
      ∃ y ∈ T'.line, T'.ticket y = T.ticket x ∧ T'.isDone y = false)
    (hnext : T'.next ≤ T.next) (htaken : ∀ k ∈ T.returned, k < T'.next)
    (hunshared : ∀ y ∈ T'.line, ∀ z ∈ T'.line, T'.isDone y = false → T'.isDone z = false →
      T'.ticket y = T'.ticket z → y = z) : T'.Sound n where
  nodup := hnodup
  sorted := hsorted
  head := by
    cases hb : T'.line.head? with
    | none => simp [backTicket, hb]
    | some b =>
        rw [backTicket_eq hb]
        exact hlow b (List.mem_of_mem_head? hb)
  lap y hy := by
    obtain ⟨x, hx, htx, -⟩ := hrange y hy
    have hlap := h.lap x hx
    omega
  within := by
    have hwithin := h.within
    simp only [written, haccepted] at hwithin ⊢
    omega
  held k hk := by
    rw [hreturned]
    rcases h.held k (by omega) with hret | ⟨x, hx, htx, hxd⟩
    · exact .inl hret
    · obtain ⟨y, hy, hty, hyd⟩ := hheld x hx hxd (by omega)
      exact .inr ⟨y, hy, by omega, hyd⟩
  taken k hk := by
    rw [hreturned] at hk
    refine ⟨?_, htaken k hk⟩
    simpa [written, haccepted] using (h.taken k hk).1
  fresh y hy hyd := by
    obtain ⟨x, hx, htx, hxd⟩ := hrange y hy
    rw [hreturned, htx]
    exact h.fresh x hx (hxd hyd)
  unshared := hunshared
  once := by
    rw [hreturned]
    exact h.once

omit [DecidableEq ρ] in
/-- Taking a reader out of the line that holds nothing unread, or the last ticket. -/
theorem Sound.erase [DecidableEq ρ] (h : T.Sound n) {r : ρ} {base : Nat}
    (hmono : T.base ≤ base) (hlow : ∀ y ∈ T.line, y ≠ r → base ≤ T.ticket y)
    (hnext : ({ T with line := T.line.erase r, base := base } : Tickets ρ E).next =
      if T.isDone r = true then T.next else T.ticket r)
    (hlast : T.isDone r = false → T.next = T.ticket r + 1) (hr : r ∈ T.line) :
    ({ T with line := T.line.erase r, base := base } : Tickets ρ E).Sound n := by
  have hmem : ∀ y ∈ T.line.erase r, y ≠ r ∧ y ∈ T.line := fun y hy => h.mem_erase_iff.mp hy
  have htr := h.lt_next hr
  refine h.depart rfl rfl hmono (fun y hy => hlow y (hmem y hy).2 (hmem y hy).1)
    (h.nodup.erase r) (h.sorted.sublist List.erase_sublist) ?_ ?_ ?_ ?_ ?_
  · intro y hy
    exact ⟨y, (hmem y hy).2, rfl, id⟩
  · intro x hx hxd hlt
    refine ⟨x, h.mem_erase_iff.mpr ⟨?_, hx⟩, rfl, hxd⟩
    rintro rfl
    rw [hnext, if_neg (by simp [hxd])] at hlt
    omega
  · rw [hnext]
    split <;> omega
  · intro k hk
    have hkn := (h.taken k hk).2
    rw [hnext]
    split
    · exact hkn
    · rename_i hdone
      have hdone : T.isDone r = false := by simpa using hdone
      have hne : k ≠ T.ticket r := by
        rintro rfl
        exact h.fresh r hr hdone hk
      have hlast := hlast hdone
      omega
  · intro y hy z hz hyd hzd heq
    exact h.unshared y (hmem y hy).2 z (hmem z hz).2 hyd hzd heq

/-- The only reader leaves. -/
theorem Sound.leave_lone (h : T.Sound n) {r : ρ} (hl : T.line = [r])
    (hlone : T.isDone r = false → T.ticket r = T.base) : (T.leave r).Sound n := by
  have hnext := next_eq (T := T) (f := r) (by simp [hl])
  have hlow := h.base_le (x := r) (by simp [hl])
  have herase : T.line.erase r = [] := by simp [hl]
  have hleave : T.leave r = { T with
      line := T.line.erase r
      base := if T.isDone r = true then T.ticket r + 1 else T.base } := by
    rw [leave, if_pos hl, herase]
  rw [hleave]
  refine h.erase ?_ ?_ ?_ (fun _ => hnext) (by simp [hl])
  · split <;> omega
  · intro y hy hyr
    rw [hl] at hy
    exact absurd (List.mem_singleton.mp hy) hyr
  · rw [next_nil (by simpa using herase)]
    split
    · rw [hnext]
    · rename_i hdone
      exact (hlone (by simpa using hdone)).symm

/-- The front leaves, and is not the only reader. -/
theorem Sound.leave_front (h : T.Sound n) {m : List ρ} {g r : ρ} (hl : T.line = m ++ [g, r])
    (hfront : if T.isDone r = true then T.ticket g = T.ticket r
      else T.ticket g + 1 = T.ticket r) : (T.leave r).Sound n := by
  have hne : T.line ≠ [r] := by
    rw [hl]
    cases m <;> simp
  have hnext := next_eq (T := T) (f := r) (by simp [hl])
  have hnd := h.nodup
  rw [hl, show m ++ [g, r] = (m ++ [g]) ++ [r] by simp] at hnd
  have hrm : r ∉ m ++ [g] := fun hm => (List.nodup_append.mp hnd).2.2 r hm r (by simp) rfl
  have herase : T.line.erase r = m ++ [g] := by
    rw [hl, show m ++ [g, r] = (m ++ [g]) ++ [r] by simp, List.erase_append_right _ hrm]
    simp
  have hleave : T.leave r = { T with line := T.line.erase r, base := T.base } := by
    rw [leave, if_neg hne, if_pos (.inl (by simp [hl]))]
  rw [hleave]
  refine h.erase (Nat.le_refl _) (fun y hy _ => h.base_le hy) ?_ (fun _ => hnext)
    (by simp [hl])
  rw [next_eq (f := g) (by simp [herase])]
  split at hfront
  · rename_i hdone
    rw [if_pos hdone, hnext]
    exact congrArg (· + 1) hfront
  · rename_i hdone
    rw [if_neg hdone]
    exact hfront

/-- A reader behind the front leaves that is done with its slot. -/
theorem Sound.leave_done (h : T.Sound n) {r f : ρ} (hr : r ∈ T.line)
    (hf : T.line.getLast? = some f) (hrf : r ≠ f) (hdone : T.isDone r = true) :
    (T.leave r).Sound n := by
  have hne : T.line ≠ [r] := by
    intro hl
    rw [hl] at hf
    exact hrf (by simpa using hf)
  have hleave : T.leave r = { T with line := T.line.erase r, base := T.base } := by
    rw [leave, if_neg hne, if_pos (.inr hdone)]
  rw [hleave]
  refine h.erase (Nat.le_refl _) (fun y hy _ => h.base_le hy) ?_ (by simp [hdone]) hr
  obtain ⟨m, hm⟩ := List.getLast?_eq_some_iff.mp hf
  have hrm : r ∈ m := by
    rw [hm] at hr
    exact (List.mem_append.mp hr).resolve_right (by simpa using hrf)
  have hlast : (T.line.erase r).getLast? = some f := by
    rw [hm, List.erase_append_left _ hrm]
    simp
  rw [if_pos hdone, next_eq (f := f) (by simpa using hlast), next_eq hf]

/-- A reader behind the front leaves that has not read its slot. -/
theorem leave_waiting_eq {p m : List ρ} {r f : ρ} (hnd : T.line.Nodup)
    (hl : T.line = p ++ r :: (m ++ [f])) (hdone : T.isDone r = false) :
    T.leave r = { T with
      line := p ++ f :: m, ticket := Function.update T.ticket f (T.ticket r) } := by
  have hne : T.line ≠ [r] := by
    rw [hl]
    intro he
    have hlen := congrArg List.length he
    simp at hlen
    omega
  have hlast : T.line.getLast? = some f := by
    simp [hl, List.getLast?_append, List.getLast?_cons]
  rw [hl, List.nodup_middle] at hnd
  have hr := (List.nodup_cons.mp hnd).1
  have hrf : f ≠ r := fun he => hr (by simp [he])
  have hmap : ∀ l : List ρ, r ∉ l → l.map (fun x => if x = r then f else x) = l := by
    intro l hrl
    refine (List.map_congr_left fun x hx => ?_).trans (List.map_id l)
    have hxr : x ≠ r := fun he => hrl (by rwa [← he])
    simp [hxr]
  have hdrop : T.line.dropLast = p ++ r :: m := by
    rw [hl, show p ++ r :: (m ++ [f]) = (p ++ r :: m) ++ [f] by simp, List.dropLast_concat]
  rw [leave, if_neg hne, if_neg (by simp [hlast, hrf, hdone])]
  simp only [hlast, hdrop, List.map_append, List.map_cons, if_true]
  rw [hmap p (fun hm => hr (by simp [hm])), hmap m (fun hm => hr (by simp [hm]))]

/-- The front takes over the ticket of a reader that leaves unread, if it has not
read its own and its own is the last. -/
theorem Sound.leave_waiting (h : T.Sound n) {p m : List ρ} {r g f : ρ}
    (hl : T.line = p ++ r :: (m ++ [f])) (hg : (r :: m).getLast? = some g)
    (hdone : T.isDone r = false) (hfront : T.isDone f = false)
    (hsecond : T.ticket g + 1 = T.ticket f) : (T.leave r).Sound n := by
  have hlast : T.line.getLast? = some f := by
    simp [hl, List.getLast?_append, List.getLast?_cons]
  have hmid := h.nodup
  rw [hl, List.nodup_middle] at hmid
  have hr := (List.nodup_cons.mp hmid).1
  have hrf : r ≠ f := fun he => hr (by simp [he])
  have hnd : (p ++ f :: m).Nodup := by
    have hperm : (p ++ (m ++ [f])).Perm (p ++ f :: m) :=
      List.Perm.append_left p (List.perm_append_singleton f m)
    exact hperm.nodup_iff.mp (List.nodup_cons.mp hmid).2
  have hfp : f ∉ p := fun hm => (List.nodup_append.mp hnd).2.2 f hm f (by simp) rfl
  have hfm := (List.nodup_cons.mp (List.nodup_append.mp hnd).2.1).1
  have hmem : ∀ y, y ∈ p ++ f :: m ↔ y ∈ T.line ∧ y ≠ r := by
    intro y
    have hy : y ∈ p ++ (m ++ [f]) → y ≠ r := fun hm he => hr (he ▸ hm)
    rw [hl]
    simp only [List.mem_append, List.mem_cons, List.not_mem_nil, or_false] at hy ⊢
    tauto
  have hfl := List.mem_of_getLast? hlast
  have hrl : r ∈ T.line := by simp [hl]
  obtain ⟨T', hT'⟩ : ∃ T', T.leave r = T' := ⟨_, rfl⟩
  have hleave := hT'.symm.trans (leave_waiting_eq h.nodup hl hdone)
  have hline : T'.line = p ++ f :: m := by rw [hleave]
  have hisDone : T'.isDone = T.isDone := by rw [hleave]
  have hself : T'.ticket f = T.ticket r := by
    rw [hleave]
    exact Function.update_self ..
  have hother : ∀ y, y ≠ f → T'.ticket y = T.ticket y := by
    intro y hy
    rw [hleave]
    exact Function.update_of_ne hy _ _
  have hbase : T'.base = T.base := by rw [hleave]
  have hnext : T'.next = T.ticket f := by
    rcases List.eq_nil_or_concat' m with rfl | ⟨q, c, rfl⟩
    · obtain rfl : r = g := by simpa using hg
      rw [next_eq (f := f) (by simp [hline]), hself, hsecond]
    · obtain rfl : c = g := by simpa [List.getLast?_cons] using hg
      have hcf : c ≠ f := fun he => hfm (by simp [he])
      rw [next_eq (f := c) (by simp [hline, List.getLast?_append, List.getLast?_cons]),
        hother c hcf, hsecond]
  have hold := next_eq hlast
  rw [hT']
  refine h.depart (by rw [hleave]) (by rw [hleave]) (Nat.le_of_eq hbase.symm) ?_
    (by rwa [hline]) ?_ ?_ ?_ (by omega) ?_ ?_
  · intro y hy
    rw [hline] at hy
    rw [hbase]
    by_cases hyf : y = f
    · rw [hyf, hself]
      exact h.base_le hrl
    · rw [hother y hyf]
      exact h.base_le ((hmem y).mp hy).1
  · have hsorted := h.sorted
    rw [hl] at hsorted
    obtain ⟨hp, hrm, hcross⟩ := List.pairwise_append.mp hsorted
    obtain ⟨hrless, hm⟩ := List.pairwise_cons.mp hrm
    have hm := (List.pairwise_append.mp hm).1
    have hpf : ∀ x ∈ p, x ≠ f := fun x hx he => hfp (he ▸ hx)
    have hmf : ∀ x ∈ m, x ≠ f := fun x hx he => hfm (he ▸ hx)
    rw [hline]
    refine List.pairwise_append.mpr ⟨?_, List.pairwise_cons.mpr ⟨?_, ?_⟩, ?_⟩
    · refine hp.imp_of_mem fun {x y} hx hy hxy => ?_
      rwa [hother x (hpf x hx), hother y (hpf y hy)]
    · intro y hy
      rw [hself, hother y (hmf y hy)]
      exact hrless y (by simp [hy])
    · refine hm.imp_of_mem fun {x y} hx hy hxy => ?_
      rwa [hother x (hmf x hx), hother y (hmf y hy)]
    · intro x hx y hy
      rw [hother x (hpf x hx)]
      rcases List.mem_cons.mp hy with rfl | hy
      · rw [hself]
        exact hcross x hx r (by simp)
      · rw [hother y (hmf y hy)]
        exact hcross x hx y (by simp [hy])
  · intro y hy
    rw [hline] at hy
    rw [hisDone]
    by_cases hyf : y = f
    · exact ⟨r, hrl, by rw [hyf, hself], fun _ => hdone⟩
    · exact ⟨y, ((hmem y).mp hy).1, hother y hyf, id⟩
  · intro x hx hxd hlt
    rw [hnext] at hlt
    rw [hline, hisDone]
    by_cases hxr : x = r
    · exact ⟨f, by simp, by rw [hself, hxr], hfront⟩
    · have hxf : x ≠ f := by
        rintro rfl
        omega
      exact ⟨x, (hmem x).mpr ⟨hx, hxr⟩, hother x hxf, hxd⟩
  · intro k hk
    have hkn := (h.taken k hk).2
    have hne : k ≠ T.ticket f := by
      rintro rfl
      exact h.fresh f hfl hfront hk
    omega
  · -- the ticket the front takes over was held unread by the leaver alone
    have hclash : ∀ z ∈ p ++ f :: m, T.isDone z = false → T.ticket r ≠ T.ticket z := by
      intro z hz hzd heq
      have hz := (hmem z).mp hz
      exact hz.2 (h.unshared z hz.1 r hrl hzd hdone heq.symm)
    rw [hline, hisDone]
    intro y hy z hz hyd hzd heq
    by_cases hyf : y = f
    · by_cases hzf : z = f
      · rw [hyf, hzf]
      · rw [hyf, hself, hother z hzf] at heq
        exact absurd heq (hclash z hz hzd)
    · by_cases hzf : z = f
      · rw [hzf, hself, hother y hyf] at heq
        exact absurd heq.symm (hclash y hy hyd)
      · rw [hother y hyf, hother z hzf] at heq
        exact h.unshared y ((hmem y).mp hy).1 z ((hmem z).mp hz).1 hyd hzd heq

omit [DecidableEq ρ] in
/-- A reader is the only one, the front, or behind the front. -/
theorem position {l : List ρ} {r : ρ} (hr : r ∈ l) :
    l = [r] ∨ (∃ m g, l = m ++ [g, r]) ∨ ∃ p m f, l = p ++ r :: (m ++ [f]) := by
  obtain ⟨p, q, rfl⟩ := List.append_of_mem hr
  rcases List.eq_nil_or_concat' q with rfl | ⟨m, f, rfl⟩
  · rcases List.eq_nil_or_concat' p with rfl | ⟨m, g, rfl⟩
    · exact .inl rfl
    · exact .inr (.inl ⟨m, g, by simp⟩)
  · exact .inr (.inr ⟨p, m, f, rfl⟩)

omit [DecidableEq ρ] in
/-- The reader before the front of a line in which `r` is behind the front. -/
theorem second_of_position (p m : List ρ) (r f : ρ) :
    ∃ q g, (r :: m).getLast? = some g ∧ p ++ r :: (m ++ [f]) = q ++ [g, f] := by
  rcases List.eq_nil_or_concat' m with rfl | ⟨m, g, rfl⟩
  · exact ⟨p, r, rfl, rfl⟩
  · exact ⟨p ++ r :: m, g, by simp [List.getLast?_cons], by simp⟩

theorem Sound.leave (h : T.Sound n) {r : ρ} (hr : r ∈ T.line) (hsafe : T.LeavesSafely r) :
    (T.leave r).Sound n := by
  rcases position hr with hl | ⟨m, g, hl⟩ | ⟨p, m, f, hl⟩
  · exact h.leave_lone hl (hsafe.lone hl)
  · exact h.leave_front hl (hsafe.front m g hl)
  · have hlast : T.line.getLast? = some f := by
      simp [hl, List.getLast?_append, List.getLast?_cons]
    have hrf : r ≠ f := by
      have hnd := h.nodup
      rw [hl, List.nodup_middle] at hnd
      exact fun he => (List.nodup_cons.mp hnd).1 (by simp [he])
    cases hdone : T.isDone r with
    | true => exact h.leave_done hr hlast hrf hdone
    | false =>
        obtain ⟨q, g, hg, hq⟩ := second_of_position p m r f
        obtain ⟨hfront, hsecond⟩ := hsafe.waiting q g f (hl.trans hq) hrf hdone
        exact h.leave_waiting hl hg hdone hfront hsecond

end Tickets

namespace SyncQueue

/-- Whether the slot `r` gives up by leaving is the last one assigned, and not
read: the reader alone works from `readIndex`; the front's predecessor holds the
same slot (the front has read it) or the one below; and a front that takes over
the slot of a reader still waiting has not read its own. -/
def leavesSafely (s : SyncQueue ρ E) (r : ρ) : Bool :=
  if (s.readers r).inQueue = false then true
  else if s.front = some r then
    if s.back = some r then
      (s.readers r).isDone || decide ((s.readers r).index = s.readIndex)
    else
      (s.readers r).previous.any fun g =>
        if (s.readers r).isDone then (s.readers g).index = (s.readers r).index
        else s.nextIndex (s.readers g).index = (s.readers r).index
  else
    (s.readers r).isDone || s.front.any fun f =>
      !(s.readers f).isDone && (s.readers f).previous.any fun g =>
        s.nextIndex (s.readers g).index = (s.readers f).index

/-- Whether the next slot to assign is not `readIndex`, unless the back holds it
(then the list spans the ring and no slot is assigned) or `r` is the back (then
`readIndex` moves on). -/
def drawsSafely (s : SyncQueue ρ E) (r : ρ) : Bool :=
  decide (s.back = some r) || s.front.all fun f => s.back.all fun b =>
    decide (s.nextIndex (s.readers f).index ≠ s.readIndex) ||
      decide ((s.readers b).index = s.readIndex)

end SyncQueue

namespace Represents

variable {n : Nat} {off : Int} {s : SyncQueue ρ E} {T : Tickets ρ E}

omit [DecidableEq ρ] in
/-- The slot after a reader's is the slot of a reader before the front exactly if
its ticket is the next. -/
theorem nextIndex_eq_iff (h : Represents n off s T) (hT : T.Sound n) (hn : 2 ≤ n) {m : List ρ}
    {g f : ρ} (hl : T.line = m ++ [g, f]) :
    s.nextIndex (s.readers g).index = (s.readers f).index ↔ T.ticket g + 1 = T.ticket f := by
  have hg : g ∈ T.line := by simp [hl]
  have hf : f ∈ T.line := by simp [hl]
  have hgf : T.ticket g ≤ T.ticket f := hT.le_front (by simp [hl]) hg
  rw [h.index g hg, h.index f hf, ReaderWriterQueue.nextIndex, HPQueue.nextIndex, h.size,
    slot_succ_eq_iff off (by omega) (hT.base_le hg) (hT.lap g hg) (hT.base_le hf) (hT.lap f hf)]
  omega

/-- The conditions read off the queue are those on the line. -/
theorem leavesSafely (h : Represents n off s T) (hT : T.Sound n) (hn : 2 ≤ n) {r : ρ}
    (hr : r ∈ T.line) (hsafe : s.leavesSafely r = true) : T.LeavesSafely r := by
  have hin : (s.readers r).inQueue = true := h.mem_iff.mpr hr
  have hticket : ∀ x ∈ T.line, ∀ k, T.base ≤ k → k < T.base + n →
      ((s.readers x).index = slot n off k ↔ T.ticket x = k) := by
    intro x hx k hk hkn
    rw [h.index x hx, slot_inj off (by omega) (hT.base_le hx) (hT.lap x hx) hk hkn]
  have hprevious : ∀ m g f, T.line = m ++ [g, f] → (s.readers f).previous = some g := by
    intro m g f hl
    have hlinked := h.chained.linked
    rw [hl] at hlinked
    exact hlinked.adjacent.2
  have hflag := h.isDone r hr
  refine
    { lone := ?_
      front := ?_
      waiting := ?_ }
  · intro hl hdone
    have hfront : s.front = some r := by rw [h.chained.front, hl]; rfl
    have hback : s.back = some r := by rw [h.chained.back, hl]; rfl
    simp only [SyncQueue.leavesSafely, hin, hfront, hback, hflag, hdone] at hsafe
    have hindex : (s.readers r).index = s.readIndex := by simpa using hsafe
    rw [h.readIndex] at hindex
    exact (hticket r hr _ (Nat.le_refl _) (by omega)).mp hindex
  · intro m g hl
    have hfront : s.front = some r := by rw [h.chained.front, hl]; simp
    have hg : g ∈ T.line := by simp [hl]
    have hback : s.back ≠ some r := by
      rw [h.chained.back, hl]
      intro hb
      have hnd := hT.nodup
      rw [hl, show m ++ [g, r] = (m ++ [g]) ++ [r] by simp] at hnd
      refine (List.nodup_append.mp hnd).2.2 r (List.mem_of_mem_head? (a := r) ?_) r (by simp) rfl
      cases m <;> simpa using hb
    have hsafe : (if (s.readers r).isDone = true then (s.readers g).index = (s.readers r).index
        else s.nextIndex (s.readers g).index = (s.readers r).index) := by
      simp only [SyncQueue.leavesSafely, hin, hfront, hback, hprevious m g r hl] at hsafe
      split <;> simp_all
    rw [hflag] at hsafe
    split
    · rename_i hdone
      rw [if_pos hdone, h.index r hr] at hsafe
      exact (hticket g hg _ (hT.base_le hr) (hT.lap r hr)).mp hsafe
    · rename_i hdone
      rw [if_neg hdone] at hsafe
      exact (h.nextIndex_eq_iff hT hn hl).mp hsafe
  · intro m g f hl hrf hdone
    have hf : f ∈ T.line := by simp [hl]
    have hfront : s.front = some f := by rw [h.chained.front, hl]; simp
    have hne : f ≠ r := fun he => hrf he.symm
    simp only [SyncQueue.leavesSafely, hin, hfront, Option.some.injEq, hne, hflag, hdone,
      hprevious m g f hl, Option.any_some, h.isDone f hf] at hsafe
    have hsafe : T.isDone f = false ∧
        s.nextIndex (s.readers g).index = (s.readers f).index := by simpa using hsafe
    exact ⟨hsafe.1, (h.nextIndex_eq_iff hT hn hl).mp hsafe.2⟩

theorem level (h : Represents n off s T) (hT : T.Sound n) {r : ρ}
    (hsafe : s.drawsSafely r = true) : T.Level n r := by
  have hfront := h.chained.front
  have hback := h.chained.back
  cases hb : T.line.head? with
  | none => exact .inr fun _ => Tickets.backTicket_nil (List.head?_eq_none_iff.mp hb)
  | some b =>
      obtain ⟨f, hf⟩ : ∃ f, T.line.getLast? = some f :=
        Option.ne_none_iff_exists'.mp (by
          simpa using List.ne_nil_of_mem (List.mem_of_mem_head? hb))
      have hbl := List.mem_of_mem_head? hb
      simp only [SyncQueue.drawsSafely, hfront, hback, hf, hb, Option.all_some, Bool.or_eq_true,
        decide_eq_true_eq] at hsafe
      rcases hsafe with hbr | hnext | hindex
      · exact .inl (by rw [hb, hbr])
      · refine .inr fun hlap => absurd ?_ hnext
        rw [h.nextIndex_front hf, hlap, h.readIndex, slot_add_lap]
      · refine .inr fun _ => ?_
        have hlow := hT.base_le hbl
        have hlap := hT.lap b hbl
        rw [h.index b hbl, h.readIndex, slot_inj off (by omega) hlow hlap (Nat.le_refl _)
          (by omega)] at hindex
        rw [Tickets.Tight, Tickets.backTicket_eq hb, hindex]

/-- `endAccess` of a registered reader leaves the line. -/
theorem endAccess (h : Represents n off s T) (hT : T.Sound n) {r : ρ} (hr : r ∈ T.line) :
    ∃ s', s.endAccess r = .ok s' ∧ Represents n off s' (T.leave r) := by
  have hchained := h.chained
  have hflag := h.isDone r hr
  have hnd := hT.nodup
  rcases Tickets.position hr with hl | ⟨m, g, hl⟩ | ⟨p, m, f, hl⟩
  · rw [hl] at hchained
    obtain ⟨s', hrun, hs'⟩ := SyncReaderList.remove_lone hchained
    refine ⟨s', hrun, ?_⟩
    have hleave : T.leave r = { T with
        line := [], base := if T.isDone r = true then T.ticket r + 1 else T.base } := by
      rw [Tickets.leave, if_pos hl]
    rw [hleave]
    refine h.of_relisted hs' ?_ ?_ rfl (by simp) (by simp)
    · rw [hflag, h.slotIsEmpty_eq hT hr]
      cases hdone : T.isDone r with
      | false => simpa using h.readIndex
      | true =>
          -- a lone reader that is done has read its slot
          have hlt : T.ticket r < T.written := by
            rcases hT.held _ (hT.lt_next hr) with hret | ⟨x, hx, -, hxd⟩
            · exact (hT.taken _ hret).1
            · rw [hl] at hx
              obtain rfl := List.mem_singleton.mp hx
              simp [hdone] at hxd
          simp [Nat.not_le.mpr hlt, h.index r hr, h.nextIndex_slot]
    · have hlow := hT.base_le hr
      dsimp only
      split <;> omega
  · have hne : T.line ≠ [r] := by
      rw [hl]
      cases m <;> simp
    have hrm : r ∉ m ++ [g] := by
      rw [hl, show m ++ [g, r] = (m ++ [g]) ++ [r] by simp] at hnd
      exact fun hm => (List.nodup_append.mp hnd).2.2 r hm r (by simp) rfl
    rw [hl] at hchained
    obtain ⟨s', hrun, hs'⟩ := SyncReaderList.remove_front hchained
    refine ⟨s', hrun, ?_⟩
    have hleave : T.leave r = { T with line := m ++ [g] } := by
      rw [Tickets.leave, if_neg hne, if_pos (.inl (by simp [hl])), hl,
        show m ++ [g, r] = (m ++ [g]) ++ [r] by simp, List.erase_append_right _ hrm]
      simp
    have hsub : ∀ x ∈ m ++ [g], x ∈ T.line ∧ x ≠ r := by
      intro x hx
      refine ⟨?_, fun he => hrm (he ▸ hx)⟩
      rw [hl, show m ++ [g, r] = (m ++ [g]) ++ [r] by simp]
      exact List.mem_append_left _ hx
    rw [hleave]
    refine h.of_relisted hs' h.readIndex (Nat.le_refl _) rfl ?_ ?_
    · exact fun x hx => h.index x (hsub x hx).1
    · intro x hx
      rw [if_neg (hsub x hx).2]
      exact h.isDone x (hsub x hx).1
  · have hlast : T.line.getLast? = some f := by
      simp [hl, List.getLast?_append, List.getLast?_cons]
    have hmid := hnd
    rw [hl, List.nodup_middle] at hmid
    have hrm := (List.nodup_cons.mp hmid).1
    have hrf : r ≠ f := fun he => hrm (by simp [he])
    have hne : T.line ≠ [r] := by
      intro he
      rw [he] at hlast
      exact hrf (by simpa using hlast)
    cases hdone : T.isDone r with
    | true =>
        obtain ⟨c, q, hq⟩ : ∃ c q, m ++ [f] = c :: q := by cases m <;> simp
        rw [hl, hq] at hchained
        obtain ⟨s', hrun, hs'⟩ := SyncReaderList.remove_done hchained (hflag.trans hdone)
        refine ⟨s', hrun, ?_⟩
        have hleave : T.leave r = { T with line := p ++ c :: q } := by
          rw [Tickets.leave, if_neg hne, if_pos (.inr hdone), hl, ← hq,
            List.erase_append_right _ (fun hm => hrm (by simp [hm])), List.erase_cons_head]
        rw [← hq] at hs' hleave
        have hsub : ∀ x ∈ p ++ (m ++ [f]), x ∈ T.line ∧ x ≠ r := by
          intro x hx
          refine ⟨?_, fun he => hrm (he ▸ hx)⟩
          rw [hl]
          simp only [List.mem_append, List.mem_cons] at hx ⊢
          tauto
        rw [hleave]
        refine h.of_relisted hs' h.readIndex (Nat.le_refl _) rfl ?_ ?_
        · exact fun x hx => h.index x (hsub x hx).1
        · intro x hx
          rw [if_neg (hsub x hx).2]
          exact h.isDone x (hsub x hx).1
    | false =>
        have hrun : ∃ s', SyncReaderList.remove s r = .ok s' ∧ Relisted s s' (p ++ f :: m)
            (fun x => if x = f then (s.readers r).index else (s.readers x).index)
            (fun x => if x = r then false else (s.readers x).isDone) s.readIndex := by
          rw [hl] at hchained
          rcases List.eq_nil_or_concat' m with rfl | ⟨m, g, rfl⟩
          · exact SyncReaderList.remove_waiting_below hchained (hflag.trans hdone)
          · refine SyncReaderList.remove_waiting_far ?_ (hflag.trans hdone)
            simpa using hchained
        obtain ⟨s', hrun, hs'⟩ := hrun
        refine ⟨s', hrun, ?_⟩
        have hsub : ∀ x ∈ p ++ f :: m, x ∈ T.line ∧ x ≠ r := by
          intro x hx
          have hx : x ∈ p ++ (m ++ [f]) := by
            simp only [List.mem_append, List.mem_cons, List.not_mem_nil, or_false] at hx ⊢
            tauto
          refine ⟨?_, fun he => hrm (he ▸ hx)⟩
          rw [hl]
          simp only [List.mem_append, List.mem_cons] at hx ⊢
          tauto
        rw [Tickets.leave_waiting_eq hnd hl hdone]
        refine h.of_relisted hs' h.readIndex (Nat.le_refl _) rfl ?_ ?_
        · intro x hx
          by_cases hxf : x = f
          · simp [hxf, h.index r hr]
          · simp [hxf, h.index x (hsub x hx).1]
        · intro x hx
          rw [if_neg (hsub x hx).2]
          exact h.isDone x (hsub x hx).1

end Represents

/-- The slots that `startAccess` and `moveToFront` will assign next: those between
the front's slot, or `readIndex` while no reader is registered, and `writeIndex`. -/
def SyncQueue.StillToAssign (s : SyncQueue ρ E) (i : Int) : Prop :=
  (match s.front with
    | none => s.adjustIndexForComparison s.readIndex ≤ s.adjustIndexForComparison i
    | some f => s.adjustIndexForComparison (s.readers f).index <
        s.adjustIndexForComparison i) ∧
  s.adjustIndexForComparison i < s.adjustIndexForComparison s.writeIndex

namespace Ledger

/-- A call that gives no slot back wrongly and assigns none too early. -/
def Orderly (t : Ledger ρ E) : Call ρ E → Prop
  | .add _ => True
  | .startAccess r => t.queue.drawsSafely r = true
  | .remove r => (t.queue.readers r).isDone = true → t.queue.drawsSafely r = true
  | .endAccess r => t.queue.leavesSafely r = true

instance (t : Ledger ρ E) : (c : Call ρ E) → Decidable (t.Orderly c)
  | .add _ => .isTrue trivial
  | .startAccess _ => inferInstanceAs (Decidable (_ = _))
  | .remove _ => inferInstanceAs (Decidable (_ → _))
  | .endAccess _ => inferInstanceAs (Decidable (_ = _))

/-- Every entry is returned at most once, and until then its slot keeps it, held
unread by a registered reader or still to be assigned. -/
structure HandOut (t : Ledger ρ E) : Prop where
  once : t.numbers.Nodup
  accepted : ∀ k ∈ t.numbers, k < t.accepted.length
  kept : ∀ k e i, t.accepted[k]? = some (e, i) → k ∉ t.numbers →
    t.occupant i = k ∧ t.queue.queueData i = .entry e ∧
      ((∃ r, (t.queue.readers r).inQueue = true ∧ (t.queue.readers r).isDone = false ∧
        (t.queue.readers r).index = i) ∨ t.queue.StillToAssign i)

namespace Follows

variable {n : Nat} {t : Ledger ρ E} {T : Tickets ρ E}

/-- `endAccess` of a reader that leaves safely. -/
theorem endAccess (h : Follows n t T) (hn : 2 ≤ n) {r : ρ}
    (hsafe : t.queue.leavesSafely r = true) :
    ∃ t' T', t.endAccess r = .ok t' ∧ Follows n t' T' := by
  cases hin : (t.queue.readers r).inQueue with
  | false =>
      have hrun : t.queue.endAccess r = .ok t.queue := SyncReaderList.remove_unregistered hin
      exact ⟨t, T, by simp [Ledger.endAccess, hrun], h⟩
  | true =>
      have hr := h.represents.mem_iff.mp hin
      obtain ⟨s', hrun, hs'⟩ := h.represents.endAccess h.sound hr
      have hleave := h.sound.leave hr (h.represents.leavesSafely h.sound hn hr hsafe)
      refine ⟨{ t with queue := s' }, T.leave r, by simp [Ledger.endAccess, hrun], ?_⟩
      have hfields : (T.leave r).accepted = T.accepted ∧ (T.leave r).returned = T.returned ∧
          T.base ≤ (T.leave r).base := by
        have hlow := h.sound.base_le hr
        unfold Tickets.leave
        split
        · refine ⟨rfl, rfl, ?_⟩
          dsimp only
          split <;> omega
        · split
          · exact ⟨rfl, rfl, Nat.le_refl _⟩
          · split <;> exact ⟨rfl, rfl, Nat.le_refl _⟩
      refine h.of_step hleave hs' hfields.1 hfields.2.2 rfl rfl ?_
      rw [hfields.2.1]
      exact h.numbers

/-- An orderly call is no fault, and its queue still stands for a line. -/
theorem call (h : Follows n t T) (hn : 2 ≤ n) {c : Call ρ E} (hallowed : t.Allowed c)
    (horderly : t.Orderly c) : ∃ t' T', t.call c = .ok t' ∧ Follows n t' T' := by
  cases c with
  | add e =>
      rcases h.add e with ⟨-, -, hadd, -⟩ | hsame
      · exact ⟨_, _, rfl, hadd⟩
      · exact ⟨_, T, rfl, by rw [hsame]; exact h⟩
  | startAccess r =>
      obtain ⟨t', hrun, ht', -⟩ := h.startAccess hn hallowed (h.represents.level h.sound horderly)
      exact ⟨t', _, hrun, ht'⟩
  | remove r =>
      have hr := h.represents.mem_iff.mp hallowed
      obtain ⟨t', hrun, ht', -⟩ := h.remove hn hr (fun hdone =>
        h.represents.level h.sound (horderly ((h.represents.isDone r hr).trans hdone)))
      exact ⟨t', _, hrun, ht'⟩
  | endAccess r => exact h.endAccess hn horderly

omit [DecidableEq ρ] in
/-- What soundness of the line means for the entries of the queue. -/
theorem handOut (h : Follows n t T) : HandOut t := by
  have hs := h.represents
  have hT := h.sound
  have hlow := hT.base_le_written
  have hhigh := hT.within
  have hn : 0 < n := by omega
  refine
    { once := by
        rw [h.numbers]
        exact hT.once
      accepted := ?_
      kept := ?_ }
  · intro k hk
    rw [h.numbers] at hk
    rw [h.length]
    exact (hT.taken k hk).1
  · intro k e i hk hkn
    rw [h.numbers] at hkn
    rw [h.getElem?_accepted] at hk
    obtain ⟨e', he', heq⟩ := Option.map_eq_some_iff.mp hk
    obtain ⟨rfl, rfl⟩ := Prod.mk.inj heq
    have hkw : k < T.written := (List.getElem?_eq_some_iff.mp he').1
    have hbase : T.base ≤ k := by
      by_contra hlt
      exact hkn (hT.returned_of_lt_base (by omega))
    refine ⟨h.occupant k hbase hkw, hs.stored k e' hbase he', ?_⟩
    rcases Nat.lt_or_ge k T.next with hlt | hge
    · left
      obtain ⟨r, hr, htr, hrd⟩ := (hT.held k hlt).resolve_left hkn
      exact ⟨r, hs.mem_iff.mpr hr, (hs.isDone r hr).trans hrd, by rw [hs.index r hr, htr]⟩
    · right
      have hwrite : t.queue.adjustIndexForComparison (slot n 0 k) <
          t.queue.adjustIndexForComparison t.queue.writeIndex := by
        simp only [ReaderWriterQueue.adjustIndexForComparison,
          adjustIndexForComparison_eq_unwrap, hs.size, hs.readIndex, hs.writeIndex]
        exact (unwrap_slot_lt_iff 0 hn (Nat.le_refl n) hbase (by omega) hlow hhigh).mpr hkw
      have hfront := hs.chained.front
      unfold SyncQueue.StillToAssign
      refine ⟨?_, hwrite⟩
      cases hf : T.line.getLast? with
      | none =>
          rw [hfront, hf]
          simp only [ReaderWriterQueue.adjustIndexForComparison,
            adjustIndexForComparison_eq_unwrap, hs.size, hs.readIndex]
          exact (unwrap_slot_le_iff 0 hn (Nat.le_refl _) (by omega) hbase (by omega)).mpr hbase
      | some f =>
          have hfl := List.mem_of_getLast? hf
          have htf := Tickets.next_eq hf
          rw [hfront, hf]
          simp only [ReaderWriterQueue.adjustIndexForComparison,
            adjustIndexForComparison_eq_unwrap, hs.size, hs.readIndex, hs.index f hfl]
          exact (unwrap_slot_lt_iff 0 hn (Nat.le_refl n) (hT.base_le hfl) (hT.lap f hfl) hbase
            (by omega)).mpr (by omega)

end Follows

/-- Exactly-once hand-out: in a run of orderly calls no call is a fault, every
entry accepted is returned at most once, and until then it stays in its slot,
held unread by a registered reader or still to be assigned to one. -/
theorem hand_out {n : Nat} (hn : 2 ≤ n) (dataEntries : ProcessingQueueDataArray E)
    {t : Ledger ρ E} (h : ((system ρ n dataEntries).restrict Orderly).Reachable t) :
    HandOut t ∧ ∀ c, t.Allowed c → t.Orderly c → ∃ u, t.call c = .ok u := by
  have hfollows : ∃ T, Follows n t T := by
    refine h.invariant (I := fun t => ∃ T, Follows n t T) ?_ ?_
    · rintro s rfl
      exact ⟨.new ρ E, .new (by omega) dataEntries⟩
    · rintro s c u ⟨T, hT⟩ ⟨⟨hallowed, hcall⟩, horderly⟩
      obtain ⟨u', T', hrun, hu'⟩ := hT.call hn hallowed horderly
      rw [hcall] at hrun
      obtain rfl := Except.ok.inj hrun
      exact ⟨T', hu'⟩
  obtain ⟨T, hT⟩ := hfollows
  refine ⟨hT.handOut, ?_⟩
  intro c hallowed horderly
  obtain ⟨u, -, hu, -⟩ := hT.call hn hallowed horderly
  exact ⟨u, hu⟩

/-- Readers that leave as the back, the front, and waiting behind the front. -/
theorem hand_out_of_leavers :
    ∃ t : Ledger (Fin 3) Nat, t.returned = [(0, 0), (1, 1), (2, 2), (0, 3)] ∧ HandOut t := by
  let calls : List (Call (Fin 3) Nat) :=
    [.startAccess 0, .startAccess 1, .startAccess 2, .add 10, .add 11, .remove 0, .remove 1,
      .endAccess 0, .startAccess 0, .endAccess 1, .add 12, .startAccess 1, .endAccess 1,
      .remove 2, .add 13, .remove 0]
  have hreturned : ((Ledger.new (Fin 3) 5 (.uniform Nat 8)).callAll Orderly calls).map
      Ledger.returned = some [(0, 0), (1, 1), (2, 2), (0, 3)] := by decide
  obtain ⟨t, hcalls, hreturned⟩ := Option.map_eq_some_iff.mp hreturned
  exact ⟨t, hreturned, (hand_out (by decide) _
    (reachable_callAll calls (System.Reachable.start rfl) hcalls)).1⟩

/-- A front that leaves after it has read its slot gives the slot to the next
mover, which is returned the same entry. -/
theorem front_returns_twice :
    ∃ t : Ledger (Fin 2) Nat, (system (Fin 2) 4 (.uniform Nat 8)).Reachable t ∧
      t.returned = [(0, 0), (1, 1), (0, 1)] ∧ ¬ HandOut t := by
  let calls : List (Call (Fin 2) Nat) :=
    [.startAccess 0, .startAccess 1, .add 10, .add 11, .remove 0, .remove 1, .endAccess 1,
      .remove 0]
  have hreturned : ((Ledger.new (Fin 2) 4 (.uniform Nat 8)).callAll (fun _ _ => True) calls).map
      Ledger.returned = some [(0, 0), (1, 1), (0, 1)] := by decide
  obtain ⟨t, hcalls, hreturned⟩ := Option.map_eq_some_iff.mp hreturned
  refine ⟨t, (reachable_callAll calls (System.Reachable.start rfl) hcalls).of_restrict,
    hreturned, ?_⟩
  intro hhand
  have honce := hhand.once
  rw [numbers, hreturned] at honce
  exact absurd honce (by decide)

end Ledger

end HPQueue
