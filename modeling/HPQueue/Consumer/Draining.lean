import HPQueue.Consumer.Closing

/-!
# One worker after the other

`stop` waits for each worker to find its slot empty.  A worker it is through with waits,
and nobody wakes it: its ticket has passed every entry that was accepted when `stop` was
called, and so have all tickets in the end.

## Main results

* `Visits.turn`, `Visits.closes` — what the steps of the others, and of `stop`, preserve.
-/

namespace HPQueue

open Library.Threads Prog

variable {ι : Type} {n : Nat} {E : Type}

namespace Attendance

open Phase

variable [DecidableEq ι] {t : Thread ι n} {ψ : Phase n} {o : Op (names ι n E)} {r : o.Result}

/-- The worker waits, has not been signalled, and has passed the entries. -/
structure Rests (φ : Thread ι n → Phase n) (s : Shared (names ι n E) (Plant ι n E))
    (T : Tickets (Fin n) E) (w : Fin n) : Prop where
  waiting : φ (.worker w) = waiting
  asleep : .worker w ∈ s.asleep (.isWorkWaiting w)
  passed : s.memory.due ≤ T.ticket w

/-- The one who stops the processor is through with some workers, and with the next one. -/
inductive Visits (owner : Thread ι n) (φ : Thread ι n → Phase n)
    (s : Shared (names ι n E) (Plant ι n E)) (T : Tickets (Fin n) E) : Phase n → Prop
  | called : Visits owner φ s T stopCalled
  | draining {ws : List (Fin n)} (hrest : ∀ v ∈ ws, Rests φ s T v) :
      Visits owner φ s T (draining ws)
  | visiting {w : Fin n} {ws : List (Fin n)} (hrest : ∀ v ∈ ws, v ≠ w → Rests φ s T v) :
      Visits owner φ s T (visiting w ws)
  /-- The worker finds its slot empty once more before it answers. -/
  | joining {w : Fin n} {ws : List (Fin n)} (hrest : ∀ v ∈ ws, v ≠ w → Rests φ s T v)
      (hasleep : owner ∈ s.asleep (.isWorkWaiting w))
      (hfound : φ (.worker w) = empty ∨ φ (.worker w) = marked → s.memory.due ≤ T.ticket w) :
      Visits owner φ s T (joining w ws)
  | answered {w : Fin n} {ws : List (Fin n)} (hrest : ∀ v ∈ ws, v ≠ w → Rests φ s T v)
      (hmarked : φ (.worker w) = marked ∧ s.memory.due ≤ T.ticket w ∨ Rests φ s T w) :
      Visits owner φ s T (joining w ws)
  | joined {w : Fin n} {ws : List (Fin n)} (hrest : ∀ v ∈ ws, v ≠ w → Rests φ s T v)
      (hw : Rests φ s T w) : Visits owner φ s T (joined w ws)

variable {φ : Thread ι n → Phase n} {s s' : Shared (names ι n E) (Plant ι n E)}
  {T T' : Tickets (Fin n) E}

omit [DecidableEq ι] in
/-- A step that touches neither the workers nor who waits for them. -/
theorem Visits.congr {owner : Thread ι n} {φ' : Thread ι n → Phase n} {χ : Phase n}
    (h : Visits owner φ s T χ) (hrests : ∀ v, Rests φ s T v → Rests φ' s' T v)
    (hasleep : ∀ w, owner ∈ s.asleep (.isWorkWaiting w) → owner ∈ s'.asleep (.isWorkWaiting w))
    (hφ : ∀ w, φ' (.worker w) = φ (.worker w)) (hdue : s'.memory.due = s.memory.due) :
    Visits owner φ' s' T χ := by
  cases h with
  | called => exact .called
  | draining hrest => exact .draining fun v hv => hrests v (hrest v hv)
  | visiting hrest => exact .visiting fun v hv hvw => hrests v (hrest v hv hvw)
  | joining hrest howner hfound =>
      refine .joining (fun v hv hvw => hrests v (hrest v hv hvw)) (hasleep _ howner) ?_
      rw [hφ, hdue]
      exact hfound
  | answered hrest hmarked =>
      refine .answered (fun v hv hvw => hrests v (hrest v hv hvw)) ?_
      rw [hφ, hdue]
      exact hmarked.imp_right (hrests _)
  | joined hrest hw => exact .joined (fun v hv hvw => hrests v (hrest v hv hvw)) (hrests _ hw)

/-! ## A step of somebody else -/

omit [DecidableEq ι] in
/-- A worker signals the one who waits for it before it waits itself. -/
theorem Turn.marked_of_broadcast {φ : Phase n} {w : Fin n}
    (h : Turn t φ (.broadcast (.isWorkWaiting w) : Op (names ι n E)) () ψ) :
    t = .worker w ∧ φ = Phase.marked ∧ ψ = Phase.marked := by
  cases h with
  | works ht h =>
      cases h
      exact ⟨ht, rfl, rfl⟩
  | produces ht h | opens ht h => cases h
  | stays h => exact absurd rfl (h w)

omit [DecidableEq ι] in
theorem Turn.waking_of_signal {φ : Phase n} {w : Fin n}
    (h : Turn t φ (.signal (.isWorkWaiting w) : Op (names ι n E)) () ψ) :
    ∃ i owes, t = .client i ∧ φ = waking w owes := by
  cases h with
  | works ht h | opens ht h => cases h
  | produces ht h =>
      cases h
      exact ⟨_, _, ht, rfl⟩
  | stays h => exact absurd rfl (h w)

/-- A worker that was not signalled waits on. -/
theorem Turn.waits_on {φ : Phase n} {w : Fin n} (h : Turn (.worker w) φ o r ψ) (hφ : φ = waiting)
    (heffect : (servedProcessor ι n E).Effect s (.worker w) o r s')
    (hasleep : .worker w ∈ s.asleep (.isWorkWaiting w)) : ψ = waiting := by
  subst hφ
  cases h with
  | works ht h =>
      cases h with
      | resume =>
          obtain rfl : w = _ := by simpa using ht
          cases heffect with
          | resume hawake hfree => exact absurd hasleep hawake
  | produces ht h | opens ht h => cases ht
  | stays h => rfl

omit [DecidableEq ι] in
theorem Turn.found_of_marked {φ : Phase n} {w : Fin n} (h : Turn (.worker w) φ o r ψ)
    (hψ : ψ = Phase.marked) : φ = empty ∨ φ = Phase.marked := by
  subst hψ
  cases h with
  | works ht h =>
      generalize hψ : Phase.marked = ψ at h
      cases h with
      | mark => exact .inl rfl
      | rouse => exact .inr rfl
      | remove entry => split at hψ <;> cases hψ
      | isWork work => split at hψ <;> cases hψ
      | init | handle | lock | wait | resume | unmark | unlock | unlockEmpty | round => cases hψ
  | produces ht h | opens ht h => cases ht
  | stays h => exact .inr rfl

omit [DecidableEq ι] in
theorem Turn.of_marked {w : Fin n} (h : Turn (.worker w) Phase.marked o r ψ) :
    ψ = Phase.marked ∨
      ψ = Phase.waiting ∧ o = .wait (.isWorkWaiting w) (.isWorkLock w) := by
  cases h with
  | works ht h =>
      obtain rfl : w = _ := by simpa using ht
      cases h with
      | rouse => exact .inl rfl
      | wait => exact .inr ⟨rfl, rfl⟩
  | produces ht h | opens ht h => cases ht
  | stays h => exact .inl rfl

theorem Rests.turn {w : Fin n} (h : Rests φ s T w) (hturn : Turn t (φ t) o r ψ)
    (heffect : (servedProcessor ι n E).Effect s t o r s')
    (hadvances : Advances t (φ t) ψ s.memory s'.memory T T')
    (hsignal : o ≠ .signal (.isWorkWaiting w)) : Rests (Function.update φ t ψ) s' T' w where
  waiting := by
    by_cases hwt : Thread.worker w = t
    · subst hwt
      rw [Function.update_self]
      exact hturn.waits_on h.waiting heffect h.asleep
    · rw [Function.update_of_ne hwt, h.waiting]
  asleep := by
    apply heffect.asleep_of_ne h.asleep hsignal
    rintro rfl
    obtain ⟨rfl, hφ, -⟩ := hturn.marked_of_broadcast
    rw [h.waiting] at hφ
    cases hφ
  passed := by
    rw [hadvances.due, hadvances.ticket w]
    · exact h.passed
    · rintro rfl
      exact .inr (.inr h.waiting)

/-- A worker that has found its slot empty keeps its ticket until it waits. -/
theorem found_turn {w : Fin n}
    (h : φ (.worker w) = empty ∨ φ (.worker w) = marked → s.memory.due ≤ T.ticket w)
    (hdue : s.memory.due ≤ s.memory.ledger.accepted.length) (hturn : Turn t (φ t) o r ψ)
    (hadvances : Advances t (φ t) ψ s.memory s'.memory T T')
    (hφ : Function.update φ t ψ (.worker w) = empty ∨
      Function.update φ t ψ (.worker w) = marked) : s'.memory.due ≤ T'.ticket w := by
  rw [hadvances.due]
  by_cases hwt : Thread.worker w = t
  · subst hwt
    rw [Function.update_self] at hφ
    have hticket : φ (.worker w) = empty ∨ φ (.worker w) = marked →
        s.memory.due ≤ T'.ticket w := by
      intro hfound
      rw [hadvances.ticket w fun _ => hfound.imp_right .inl]
      exact h hfound
    rcases hφ with hφ | hφ
    · rcases hadvances.found w rfl hφ with hempty | hlength
      · exact hticket (.inl hempty)
      · exact hdue.trans hlength
    · exact hticket (hturn.found_of_marked hφ)
  · rw [Function.update_of_ne hwt] at hφ
    rw [hadvances.ticket w fun ht => absurd ht.symm hwt]
    exact h hφ

/-- A worker that has answered waits then. -/
theorem answered_turn {w : Fin n} (h : φ (.worker w) = marked ∧ s.memory.due ≤ T.ticket w)
    (hturn : Turn t (φ t) o r ψ) (heffect : (servedProcessor ι n E).Effect s t o r s')
    (hadvances : Advances t (φ t) ψ s.memory s'.memory T T') :
    Function.update φ t ψ (.worker w) = marked ∧ s'.memory.due ≤ T'.ticket w ∨
      Rests (Function.update φ t ψ) s' T' w := by
  obtain ⟨hφ, hdue⟩ := h
  have hticket : s'.memory.due ≤ T'.ticket w := by
    rw [hadvances.due, hadvances.ticket w]
    · exact hdue
    · rintro rfl
      exact .inr (.inl hφ)
  by_cases hwt : Thread.worker w = t
  · subst hwt
    rw [Function.update_self]
    rw [hφ] at hturn
    rcases hturn.of_marked with hψ | ⟨hψ, rfl⟩
    · exact .inl ⟨hψ, hticket⟩
    · refine .inr ⟨by rw [Function.update_self, hψ], ?_, hticket⟩
      cases heffect
      simp [Shared.sleep]
  · rw [Function.update_of_ne hwt]
    exact .inl ⟨hφ, hticket⟩

/-- What a step of somebody else preserves. -/
theorem Visits.turn {owner : Thread ι n} {χ : Phase n} (h : Visits owner φ s T χ)
    (hdue : s.memory.due ≤ s.memory.ledger.accepted.length) (hturn : Turn t (φ t) o r ψ)
    (heffect : (servedProcessor ι n E).Effect s t o r s')
    (hadvances : Advances t (φ t) ψ s.memory s'.memory T T')
    (hsignal : χ ≠ stopCalled → ∀ w, o ≠ .signal (.isWorkWaiting w)) :
    Visits owner (Function.update φ t ψ) s' T' χ := by
  have hrests : χ ≠ stopCalled → ∀ v, Rests φ s T v → Rests (Function.update φ t ψ) s' T' v :=
    fun hχ v hv => hv.turn hturn heffect hadvances (hsignal hχ v)
  cases h with
  | called => exact .called
  | draining hrest => exact .draining fun v hv => hrests (by simp) v (hrest v hv)
  | visiting hrest => exact .visiting fun v hv hvw => hrests (by simp) v (hrest v hv hvw)
  | @joining w ws hrest hasleep hfound =>
      have hrest' : ∀ v ∈ ws, v ≠ w → Rests (Function.update φ t ψ) s' T' v :=
        fun v hv hvw => hrests (by simp) v (hrest v hv hvw)
      by_cases hbroadcast : o = .broadcast (.isWorkWaiting w)
      · subst hbroadcast
        obtain ⟨rfl, hmarked, rfl⟩ := hturn.marked_of_broadcast
        refine .answered hrest' (.inl ⟨Function.update_self _ _ _, ?_⟩)
        rw [hadvances.due, hadvances.ticket w fun _ => .inr (.inl hmarked)]
        exact hfound (.inr hmarked)
      · refine .joining hrest' (heffect.asleep_of_ne hasleep (hsignal (by simp) w) hbroadcast) ?_
        exact found_turn hfound hdue hturn hadvances
  | answered hrest hmarked =>
      refine .answered (fun v hv hvw => hrests (by simp) v (hrest v hv hvw)) ?_
      rcases hmarked with hmarked | hw
      · exact answered_turn hmarked hturn heffect hadvances
      · exact .inr (hrests (by simp) _ hw)
  | joined hrest hw =>
      exact .joined (fun v hv hvw => hrests (by simp) v (hrest v hv hvw)) (hrests (by simp) _ hw)

/-! ## A step of `stop` -/

/-- A step that leaves the phase as it is leaves the queue as it is. -/
theorem plant_of_plain {φ : Phase n} (heffect : (servedProcessor ι n E).Effect s t o r s')
    (hplain : Plain t φ o) :
    s'.memory = { s.memory with control := written t s.memory.control o } := by
  by_cases hask : ∀ q, o ≠ .ask q
  · exact plant_of_effect heffect hask
  · obtain ⟨q, rfl⟩ := not_forall_not.mp hask
    cases heffect with
    | ask hreply =>
        cases Plant.replies_of_reply hreply with
        | isMaxSize | started => rfl
        | add | init | finalize | remove | handle | isWork => cases hplain

theorem plant_of_closes {φ : Phase n} (heffect : (servedProcessor ι n E).Effect s t o r s')
    (hcloses : Closes φ o r ψ) :
    s'.memory = { s.memory with control := written t s.memory.control o } := by
  apply plant_of_effect heffect
  cases hcloses with
  | finish hask => exact hask
  | begin | visit | rouse | wait | resume | leave | tell | wake => simp

theorem Rests.client {i : ι} {w : Fin n} (h : Rests φ s T w)
    (heffect : (servedProcessor ι n E).Effect s (.client i) o r s')
    (hdue : s'.memory.due = s.memory.due) (hsignal : o ≠ .signal (.isWorkWaiting w))
    (hbroadcast : o ≠ .broadcast (.isWorkWaiting w)) :
    Rests (Function.update φ (.client i) ψ) s' T w where
  waiting := by
    rw [Function.update_of_ne (by simp)]
    exact h.waiting
  asleep := heffect.asleep_of_ne h.asleep hsignal hbroadcast
  passed := by
    rw [hdue]
    exact h.passed

omit [DecidableEq ι] in
theorem visited_nil (hn : 0 < n) : visited [] = (draining [] : Phase n) :=
  if_neg fun hall => by cases hall ⟨0, hn⟩

omit [DecidableEq ι] in
theorem told_nil (hn : 0 < n) : told [] = (telling [] : Phase n) :=
  if_neg fun hall => by cases hall ⟨0, hn⟩

namespace Visits

variable {i : ι} {χ : Phase n}

theorem plain (h : Visits (.client i) φ s T χ)
    (heffect : (servedProcessor ι n E).Effect s (.client i) o r s')
    (hplain : Plain (.client i) χ o) :
    Visits (.client i) (Function.update φ (.client i) ψ) s' T χ := by
  have hdue : s'.memory.due = s.memory.due := by rw [plant_of_plain heffect hplain]
  have hsignal : ∀ w, o ≠ .signal (.isWorkWaiting w) := by
    rintro w rfl
    exact hplain w rfl
  have hbroadcast : ∀ w, o ≠ .broadcast (.isWorkWaiting w) := by
    rintro w rfl
    exact hplain w rfl
  apply h.congr
  · exact fun v hv => hv.client heffect hdue (hsignal v) (hbroadcast v)
  · exact fun w hasleep => heffect.asleep_of_ne hasleep (hsignal w) (hbroadcast w)
  · exact fun w => Function.update_of_ne (by simp) _ _
  · exact hdue

/-- What a step of `stop` preserves, until every worker rests. -/
theorem closes (h : Visits (.client i) φ s T χ) (hn : 0 < n)
    (heffect : (servedProcessor ι n E).Effect s (.client i) o r s')
    (hcloses : Closes χ o r ψ) (hφ : φ (.client i) = χ)
    (hlocks : ∀ t l, Guards t (φ t) l → s.held l = some t) :
    Visits (.client i) (Function.update φ (.client i) ψ) s' T ψ ∨
      ψ = telling [] ∧ ∀ w, Rests (Function.update φ (.client i) ψ) s' T w := by
  have hdue : s'.memory.due = s.memory.due := by rw [plant_of_closes heffect hcloses]
  cases h with
  | called =>
      cases hcloses
      rw [visited_nil hn]
      exact .inl (.draining fun v hv => by cases hv)
  | @draining ws hrest =>
      cases hcloses with
      | visit w =>
          refine .inl (.visiting fun v hv _ => ?_)
          exact (hrest v hv).client heffect hdue (by simp) (by simp)
  | @visiting w ws hrest =>
      have hrests : ∀ v ∈ ws, v ≠ w → Rests (Function.update φ (.client i) ψ) s' T v := by
        intro v hv hvw
        apply (hrest v hv hvw).client heffect hdue
        · rintro rfl
          cases hcloses
          exact hvw rfl
        · rintro rfl
          cases hcloses
      cases hcloses with
      | rouse => exact .inl (.visiting hrests)
      | wait =>
          refine .inl (.joining hrests ?_ ?_)
          · cases heffect
            simp [Shared.sleep]
          · -- the worker cannot look at its slot now
            rw [Function.update_of_ne (by simp)]
            intro hfound
            have howner := hlocks (.client i) (.isWorkLock w) (by rw [hφ]; exact .inr rfl)
            have hworker := hlocks (.worker w) (.isWorkLock w) (by
              rcases hfound with hfound | hfound <;> rw [hfound] <;> exact rfl)
            rw [howner] at hworker
            cases hworker
  | @joining w ws hrest hasleep hfound =>
      cases hcloses with
      | resume =>
          cases heffect with
          | resume hawake hfree => exact absurd hasleep hawake
  | @answered w ws hrest hmarked =>
      cases hcloses with
      | resume =>
          refine .inl (.joined (fun v hv hvw => ?_) ?_)
          · exact (hrest v hv hvw).client heffect hdue (by simp) (by simp)
          · rcases hmarked with ⟨hmarked, -⟩ | hw
            · have hworker := hlocks (.worker w) (.isWorkLock w) (by rw [hmarked]; exact rfl)
              cases heffect with
              | resume hawake hfree =>
                  rw [hfree] at hworker
                  cases hworker
            · exact hw.client heffect hdue (by simp) (by simp)
  | @joined w ws hrest hw =>
      cases hcloses with
      | leave =>
          have hrests : ∀ v ∈ w :: ws,
              Rests (Function.update φ (.client i) (visited (w :: ws))) s' T v := by
            intro v hv
            by_cases hvw : v = w
            · subst hvw
              exact hw.client heffect hdue (by simp) (by simp)
            · have hv := (List.mem_cons.mp hv).resolve_left hvw
              exact (hrest v hv hvw).client heffect hdue (by simp) (by simp)
          by_cases hall : ∀ v, v ∈ w :: ws
          · refine .inr ⟨?_, fun v => hrests v (hall v)⟩
            rw [visited_of_forall hall, told_nil hn]
          · have hvisited : visited (w :: ws) = Phase.draining (w :: ws) := if_neg hall
            rw [hvisited] at hrests ⊢
            exact .inl (.draining hrests)

end Visits

end Attendance

end HPQueue
