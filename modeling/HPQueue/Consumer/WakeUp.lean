import HPQueue.Consumer.Order
import HPQueue.Queue.Serving

/-!
# No wake-up is lost

Producers add an entry and then signal the workers that wait; a worker looks at its slot
once more before it waits.  As long as the processor is neither stopped nor terminated, a
worker that waits and was not signalled has an empty slot, or some producer has not come
to it yet.

## Main results

* `Attended.turn` — what one step preserves.
* `no_lost_wakeup` — once all producers are through, nobody waits beside an entry.
-/

namespace HPQueue

open Library.Threads Prog

variable {ι : Type} {n : Nat} {E : Type}

namespace Attendance

open Phase

variable [DecidableEq ι] {t : Thread ι n} {φ ψ : Phase n} {o : Op (names ι n E)} {r : o.Result}

/-! ## The workers that were not told -/

/-- The workers that a producer owes a signal. -/
def owes : Phase n → List (Fin n)
  | outside ws => ws
  | inside ws => ws
  | signalling _ ws => ws
  | waking _ ws => ws
  | _ => []

/-- A worker that has found its slot empty, and has nothing but a signal to wake it. -/
def Unaware (φ : Phase n) (asleep : Prop) : Prop :=
  φ = empty ∨ φ = marked ∨ φ = waiting ∧ asleep

/-- A worker that does not know of its entry is owed a signal. -/
structure Attended (queueSize : Nat) (φ : Thread ι n → Phase n)
    (s : Shared (names ι n E) (Plant ι n E)) (T : Tickets (Fin n) E) : Prop where
  serving : Ledger.Serving queueSize s.memory.ledger T
  inQueue : ∀ w, φ (.worker w) ≠ absent → φ (.worker w) ≠ fresh →
    (s.memory.ledger.queue.readers w).inQueue = true
  owed : ∀ w, Unaware (φ (.worker w)) (.worker w ∈ s.asleep (.isWorkWaiting w)) →
    T.ticket w < T.written → ∃ t, w ∈ owes (φ t)
  added : ∀ t w, w ∈ owes (φ t) → s.memory.added t = true

omit [DecidableEq ι] in
theorem Works.owes {w : Fin n} (h : Works w φ o r ψ) : owes φ = [] ∧ owes ψ = [] := by
  cases h with
  | remove entry => by_cases hentry : entry = 0 <;> simp [hentry, Attendance.owes]
  | isWork work => by_cases hwork : work = 0 <;> simp [hwork, Attendance.owes]
  | init | handle | lock | mark | rouse | wait | resume | unmark | unlock | unlockEmpty | round =>
      exact ⟨rfl, rfl⟩

omit [DecidableEq ι] in
theorem Opens.owes (h : Opens φ o r ψ) : owes φ = [] ∧ owes ψ = [] := by
  cases h with
  | isRunning b => cases b <;> exact ⟨rfl, rfl⟩
  | lock | restarted | run | construct | point | found | started | opened =>
      exact ⟨rfl, rfl⟩

omit [DecidableEq ι] in
/-- Nobody is owed more by a step that asks nothing. -/
theorem Turn.owes_subset (h : Turn t φ o r ψ) (hask : ∀ q, o ≠ .ask q) : owes ψ ⊆ owes φ := by
  cases h with
  | works ht h => simp [h.owes]
  | opens ht h => simp [h.owes]
  | stays h => exact List.Subset.refl _
  | produces ht h =>
      cases h with
      | add owes entry index => exact absurd rfl (hask _)
      | enter | leave | lock | unlock => exact List.Subset.refl _
      | pointer w owes b =>
          cases b with
          | true => exact List.Subset.refl _
          | false => exact List.filter_subset_self owes
      | waitingFlag w owes b =>
          cases b with
          | true => exact List.Subset.refl _
          | false => exact List.filter_subset_self owes
      | signal w owes => exact List.filter_subset_self owes

omit [DecidableEq ι] in
/-- A worker is registered by the query that does so. -/
theorem Turn.registered (h : Turn t φ o r ψ) (hask : ∀ q, o ≠ .ask q)
    (hψ : ψ ≠ absent ∧ ψ ≠ fresh) : φ ≠ absent ∧ φ ≠ fresh := by
  cases h with
  | works ht h =>
      cases h with
      | init | remove | handle | isWork => exact absurd rfl (hask _)
      | lock | mark | rouse | wait | resume | unmark | unlock | unlockEmpty | round => simp
  | produces ht h | opens ht h => cases h <;> simp
  | stays h => exact hψ

omit [DecidableEq ι] in
/-- Unless it has just looked at its slot, a worker that is unaware was so before. -/
theorem Works.unaware {w : Fin n} {asleep asleep' : Prop} (h : Works w φ o r ψ)
    (hask : ∀ q, o ≠ .ask q) (hψ : Unaware ψ asleep') : Unaware φ asleep := by
  cases h with
  | mark | rouse | wait => simp [Unaware]
  | init | remove | handle | isWork => exact absurd rfl (hask _)
  | lock | resume | unmark | unlock | unlockEmpty | round => simp [Unaware] at hψ

theorem Unaware.mono {asleep asleep' : Prop} (h : Unaware φ asleep) (himp : asleep → asleep') :
    Unaware φ asleep' :=
  h.imp_right fun h => h.imp_right fun h => ⟨h.1, himp h.2⟩

theorem mem_without {v w : Fin n} {ws : List (Fin n)} (hw : w ∈ ws) (hne : w ≠ v) :
    w ∈ without v ws := by
  simp [without, hw, hne]

namespace Orderly

variable {φ : Thread ι n → Phase n} {s s' : Shared (names ι n E) (Plant ι n E)}

theorem unaware (hturn : Turn t (φ t) o r ψ) (hask : ∀ q, o ≠ .ask q)
    (heffect : (servedProcessor ι n E).Effect s t o r s') {w : Fin n}
    (hw : Unaware (Function.update φ t ψ (.worker w)) (.worker w ∈ s'.asleep (.isWorkWaiting w))) :
    Unaware (φ (.worker w)) (.worker w ∈ s.asleep (.isWorkWaiting w)) := by
  by_cases hwt : Thread.worker w = t
  · subst hwt
    rw [Function.update_self] at hw
    cases hturn with
    | works ht hturn => exact hturn.unaware hask hw
    | produces ht hturn | opens ht hturn => cases ht
    | stays hplain =>
        apply hw.mono
        intro hasleep
        rcases heffect.asleep hasleep with hasleep | ⟨-, l, rfl⟩
        · exact hasleep
        · exact absurd rfl (hplain.2 w)
  · rw [Function.update_of_ne hwt] at hw
    exact hw.mono fun hasleep => (heffect.asleep hasleep).resolve_right fun h => hwt h.1

omit [DecidableEq ι] in
/-- A worker that found its slot empty keeps everybody from its `isWorkLock`. -/
theorem ne_of_holds (h : Orderly φ s) {i : ι} {w : Fin n}
    (hi : Holds (.client i) (φ (.client i)) (.isWorkLock w)) :
    φ (.worker w) ≠ empty ∧ φ (.worker w) ≠ Phase.marked := by
  have hlock := h.locks _ _ hi
  constructor
  · intro hempty
    have hlock' := h.locks (.worker w) (.isWorkLock w) (by rw [hempty]; exact rfl)
    rw [hlock] at hlock'
    cases hlock'
  · intro hmarked
    have hlock' := h.locks (.worker w) (.isWorkLock w) (by rw [hmarked]; exact rfl)
    rw [hlock] at hlock'
    cases hlock'

/-- A worker is owed a signal until it is aware. -/
theorem told (h : Orderly φ s) (hturn : Turn t (φ t) o r ψ) (hask : ∀ q, o ≠ .ask q)
    (heffect : (servedProcessor ι n E).Effect s t o r s') {w : Fin n}
    (hw : Unaware (φ (.worker w)) (.worker w ∈ s'.asleep (.isWorkWaiting w)))
    (howes : w ∈ owes (φ t)) : w ∈ owes ψ := by
  generalize hφ : φ t = χ at hturn howes
  cases hturn with
  | works ht hturn =>
      rw [hturn.owes.1] at howes
      cases howes
  | opens ht hturn =>
      rw [hturn.owes.1] at howes
      cases howes
  | stays hplain => exact howes
  | @produces i _ ht hturn =>
      subst ht
      have hsees := sees_of_effect heffect
      cases hturn with
      | add owes entry index => exact absurd rfl (hask _)
      | enter | leave | lock | unlock => exact howes
      | pointer v owes b =>
          cases b with
          | true => exact howes
          | false =>
              apply mem_without howes
              rintro rfl
              rw [h.staffed.pointer hsees.symm] at hw
              simp [Unaware] at hw
      | waitingFlag v owes b =>
          cases b with
          | true => exact howes
          | false =>
              apply mem_without howes
              rintro rfl
              obtain ⟨hempty, hmarked⟩ := h.ne_of_holds (i := i) (w := w) (by rw [hφ]; exact rfl)
              obtain ⟨hwaiting, -⟩ := (hw.resolve_left hempty).resolve_left hmarked
              have hflag := h.marked w (.inr (.inl hwaiting))
              rw [show s.memory.control.flag (.worker w .isWaitingFlag) = false from hsees.symm]
                at hflag
              cases hflag
      | signal v owes =>
          apply mem_without howes
          rintro rfl
          obtain ⟨hempty, hmarked⟩ := h.ne_of_holds (i := i) (w := w) (by rw [hφ]; exact rfl)
          obtain ⟨-, hasleep⟩ := (hw.resolve_left hempty).resolve_left hmarked
          exact heffect.awake_of_signal (h.asleep w) hasleep

end Orderly

/-- The phases before the first call. -/
def atFirst : Thread ι n → Phase n
  | .client _ => outside []
  | .worker _ => absent

omit [DecidableEq ι] in
theorem owes_of_worker {w : Fin n} (h : Attends (.worker w : Thread ι n) φ) : owes φ = [] := by
  cases φ <;> first | rfl | cases h

/-- What is known of the workers that have registered, when one thread changes its phase. -/
theorem registered_update {φ : Thread ι n → Phase n} {P Q : Fin n → Prop}
    (h : ∀ w, φ (.worker w) ≠ absent → φ (.worker w) ≠ fresh → P w) (hkept : ∀ w, P w → Q w)
    (hchanged : ∀ w, t = .worker w → ψ ≠ absent → ψ ≠ fresh → Q w) (w : Fin n)
    (habsent : Function.update φ t ψ (.worker w) ≠ absent)
    (hfresh : Function.update φ t ψ (.worker w) ≠ fresh) : Q w := by
  by_cases hwt : Thread.worker w = t
  · subst hwt
    rw [Function.update_self] at habsent hfresh
    exact hchanged w rfl habsent hfresh
  · rw [Function.update_of_ne hwt] at habsent hfresh
    exact hkept w (h w habsent hfresh)

namespace Attended

variable {φ : Thread ι n → Phase n} {s s' : Shared (names ι n E) (Plant ι n E)}
  {T T' : Tickets (Fin n) E} {queueSize : Nat}

/-- A step that asks nothing. -/
theorem quiet (h : Attended queueSize φ s T) (horderly : Orderly φ s) (hturn : Turn t (φ t) o r ψ)
    (hask : ∀ q, o ≠ .ask q) (heffect : (servedProcessor ι n E).Effect s t o r s') :
    Attended queueSize (Function.update φ t ψ) s' T := by
  obtain ⟨hledger, hadded⟩ :
      s'.memory.ledger = s.memory.ledger ∧ s'.memory.added = s.memory.added := by
    rw [plant_of_effect heffect hask]
    exact ⟨rfl, rfl⟩
  constructor
  · rw [hledger]
    exact h.serving
  · rw [hledger]
    refine registered_update h.inQueue (fun _ => id) ?_
    rintro w rfl habsent hfresh
    obtain ⟨habsent', hfresh'⟩ := hturn.registered hask ⟨habsent, hfresh⟩
    exact h.inQueue w habsent' hfresh'
  · intro w hw hticket
    obtain ⟨u, hu⟩ := h.owed w (Orderly.unaware hturn hask heffect hw) hticket
    by_cases hut : u = t
    · subst hut
      refine ⟨u, ?_⟩
      rw [Function.update_self]
      by_cases hwu : Thread.worker w = u
      · subst hwu
        rw [owes_of_worker (horderly.attends _)] at hu
        cases hu
      · rw [Function.update_of_ne hwu] at hw
        exact horderly.told hturn hask heffect hw hu
    · exact ⟨u, by rwa [Function.update_of_ne hut]⟩
  · intro u w hu
    rw [hadded]
    by_cases hut : u = t
    · subst hut
      exact h.added u w (hturn.owes_subset hask (by simpa using hu))
    · exact h.added u w (by rwa [Function.update_of_ne hut] at hu)

/-- A query of a worker. -/
theorem query (h : Attended queueSize φ s T) {v : Fin n} {m : Plant ι n E}
    (howes : owes (φ (.worker v)) = [] ∧ owes ψ = []) (hψ : ψ ≠ marked ∧ ψ ≠ waiting)
    (hempty : ψ = empty → T.written ≤ T'.ticket v)
    (hserving : Ledger.Serving queueSize m.ledger T')
    (hbesides : Ledger.Besides v s.memory.ledger m.ledger T T')
    (hadded : m.added = s.memory.added) :
    Attended queueSize (Function.update φ (.worker v) ψ) { s with memory := m } T' := by
  have hother : ∀ u, u ≠ .worker v → Function.update φ (.worker v) ψ u = φ u :=
    fun u hu => Function.update_of_ne hu _ _
  constructor
  · exact hserving
  · refine registered_update h.inQueue (fun w hw => (hbesides.inQueue w).mpr (.inr hw)) ?_
    intro w hw _ _
    exact (hbesides.inQueue w).mpr (.inl (by simpa using hw.symm))
  · intro w hw hticket
    rw [hbesides.written] at hticket
    by_cases hwv : w = v
    · subst hwv
      rw [Function.update_self] at hw
      rcases hw with hw | hw | ⟨hw, -⟩
      · have hle := hempty hw
        omega
      · exact absurd hw hψ.1
      · exact absurd hw hψ.2
    · rw [hother _ (by simpa using hwv)] at hw
      rw [hbesides.ticket w hwv] at hticket
      obtain ⟨u, hu⟩ := h.owed w hw hticket
      refine ⟨u, ?_⟩
      rw [hother]
      · exact hu
      · rintro rfl
        rw [howes.1] at hu
        cases hu
  · intro u w hu
    rw [show ({ s with memory := m } : Shared (names ι n E) (Plant ι n E)).memory.added =
      s.memory.added from hadded]
    by_cases huv : u = .worker v
    · subst huv
      rw [Function.update_self, howes.2] at hu
      cases hu
    · rw [hother u huv] at hu
      exact h.added u w hu

/-- An `add`. -/
theorem add (h : Attended queueSize φ s T) {i : ι} {ws : List (Fin n)} (e : E)
    (hφ : φ (.client i) = outside ws) :
    ∃ T', Attended queueSize
      (Function.update φ (.client i) (outside
        (if 0 ≤ (s.memory.ledger.queue.add e).2 then List.finRange n else ws)))
      { s with memory := { s.memory with
        ledger := s.memory.ledger.add e
        added := Function.update s.memory.added (.client i)
          (s.memory.added (.client i) || decide (0 ≤ (s.memory.ledger.queue.add e).2)) } } T' := by
  obtain ⟨T', hserving, hfed, hrefused⟩ := h.serving.add e
  have hother : ∀ {χ : Phase n} {u : Thread ι n}, u ≠ .client i →
      Function.update φ (.client i) χ u = φ u :=
    fun hu => Function.update_of_ne hu _ _
  refine ⟨T', hserving, ?_, ?_, ?_⟩
  · intro w habsent hfresh
    rw [hother (by simp)] at habsent hfresh
    show ((s.memory.ledger.add e).queue.readers w).inQueue = true
    rw [hfed.readers]
    exact h.inQueue w habsent hfresh
  · intro w hw hticket
    rw [hother (by simp)] at hw
    by_cases haccepted : 0 ≤ (s.memory.ledger.queue.add e).2
    · refine ⟨.client i, ?_⟩
      rw [Function.update_self, if_pos haccepted]
      exact List.mem_finRange w
    · rw [hrefused (by omega)] at hticket
      obtain ⟨u, hu⟩ := h.owed w hw hticket
      refine ⟨u, ?_⟩
      by_cases hui : u = .client i
      · subst hui
        rw [Function.update_self, if_neg haccepted]
        rwa [hφ] at hu
      · rwa [hother hui]
  · intro u w hu
    show Function.update s.memory.added (.client i) _ u = true
    by_cases hui : u = .client i
    · subst hui
      rw [Function.update_self] at hu ⊢
      by_cases haccepted : 0 ≤ (s.memory.ledger.queue.add e).2
      · simp [haccepted]
      · rw [if_neg haccepted] at hu
        rw [h.added (.client i) w (by rwa [hφ]), Bool.true_or]
    · rw [Function.update_of_ne hui]
      rw [hother hui] at hu
      exact h.added u w hu

/-- What a worker asks. -/
theorem works (h : Attended queueSize φ s T) {v : Fin n} {χ : Phase n} {q : Query n E} {a : Int}
    {m : Plant ι n E} (hφ : φ (.worker v) = χ) (hturn : Works v χ (.ask q : Op (names ι n E)) a ψ)
    (hreply : Plant.Replies (.worker v) s.memory q a m) :
    ∃ T', Attended queueSize (Function.update φ (.worker v) ψ) { s with memory := m } T' := by
  have howes : owes (φ (.worker v)) = [] ∧ owes ψ = [] := by
    rw [hφ]
    exact hturn.owes
  cases hturn with
  | init a =>
      cases hreply with
      | init hrun a =>
          obtain ⟨T', hserving, hbesides, -⟩ := h.serving.startAccess hrun
          exact ⟨T', h.query howes (by simp) (by simp) hserving hbesides rfl⟩
  | remove entry =>
      cases hreply with
      | remove hrun hentry =>
          have hin := h.inQueue v (by simp [hφ]) (by simp [hφ])
          obtain ⟨T', hserving, hbesides, -⟩ := h.serving.remove hin hrun
          refine ⟨T', h.query howes ?_ ?_ hserving hbesides rfl⟩
          · split <;> simp
          · split <;> simp
  | handle =>
      cases hreply with
      | handle =>
          have hin := h.inQueue v (by simp [hφ]) (by simp [hφ])
          have hbesides : Ledger.Besides v s.memory.ledger s.memory.ledger T T :=
            .of_readers hin rfl (fun _ => rfl) rfl
          exact ⟨T, h.query howes (by simp) (by simp) h.serving hbesides rfl⟩
  | isWork work =>
      cases hreply with
      | isWork hwork =>
          have hin := h.inQueue v (by simp [hφ]) (by simp [hφ])
          have hbesides : Ledger.Besides v s.memory.ledger (s.memory.ledger.isEmpty v) T T :=
            .of_readers hin rfl (fun _ => by simp [Ledger.isEmpty, SyncQueue.isEmpty]) rfl
          refine ⟨T, h.query howes ?_ ?_ (h.serving.isEmpty v) hbesides rfl⟩
          · split <;> simp
          · by_cases hzero : a = 0
            · rw [h.serving.slotIsEmpty hin] at hwork
              intro _
              simpa [hzero] using hwork
            · simp [hzero]

/-- What one step preserves. -/
theorem turn (h : Attended queueSize φ s T) (horderly : Orderly φ s)
    (hturn : Turn t (φ t) o r ψ) (heffect : (servedProcessor ι n E).Effect s t o r s') :
    ∃ T', Attended queueSize (Function.update φ t ψ) s' T' := by
  by_cases hask : ∀ q, o ≠ .ask q
  · exact ⟨T, h.quiet horderly hturn hask heffect⟩
  · obtain ⟨q, rfl⟩ := not_forall_not.mp hask
    cases heffect with
    | @ask _ a m hreply =>
        replace hreply := Plant.replies_of_reply hreply
        generalize hφ : φ t = χ at hturn
        cases hturn with
        | works ht hturn =>
            subst ht
            exact h.works hφ hturn hreply
        | produces ht hturn =>
            subst ht
            cases hturn with
            | add ws e =>
                cases hreply with
                | add => exact h.add e hφ
        | opens ht hturn => cases hturn
        | stays hplain =>
            rw [← hφ, Function.update_eq_self]
            cases hreply with
            | isMaxSize | started => exact ⟨T, h⟩
            | add | init | finalize | remove | handle | isWork => cases hplain
theorem new (hsize : 0 < queueSize) (dataEntries : ProcessingQueueDataArray E) :
    Attended queueSize (atFirst (ι := ι)) (newServedProcessor ι n queueSize dataEntries).shared
      (.new (Fin n) E) where
  serving := .new hsize dataEntries
  inQueue := fun w habsent _ => absurd rfl habsent
  owed := by
    intro w hw
    simp [atFirst, Unaware] at hw
  added := by
    rintro (i | v) w hw <;> cases hw

end Attended

theorem Orderly.new (queueSize : Nat) (dataEntries : ProcessingQueueDataArray E) :
    Orderly (atFirst (ι := ι)) (newServedProcessor ι n queueSize dataEntries).shared where
  attends := by rintro (i | w) <;> trivial
  locks := by rintro (i | w) l hl <;> cases hl
  alive := fun _ _ => rfl
  marked := by
    intro w hw
    simp [atFirst, Marks] at hw
  staffed :=
    { absent := by rintro (i | v) w hw <;> cases hw
      stopped := fun _ _ => rfl
      opened := by rintro (i | v) hopened <;> cases hopened
      running := fun hrunning => by cases hrunning }
  asleep := by
    intro w t ht
    cases ht

variable {queueSize : Nat}

/-- Where the threads are, and what that says of the queue. -/
def Serves (queueSize : Nat) (φ : Thread ι n → Phase n)
    (s : Shared (names ι n E) (Plant ι n E)) : Prop :=
  Orderly φ s ∧ ∃ T, Attended queueSize φ s T

theorem final_client {i : ι} (hφ : Attends (.client i) φ)
    (hfinal : (protocol ι n E).final (.client i) φ) : φ = outside [] := by
  rcases hfinal with rfl | rfl | rfl
  · cases hφ
  · rfl
  · cases hφ

theorem final_worker {w : Fin n} (hφ : Attends (.worker w : Thread ι n) φ)
    (hfinal : (protocol ι n E).final (.worker w) φ) : φ = absent := by
  rcases hfinal with rfl | rfl | rfl
  · cases hφ
  · rfl
  · cases hφ

namespace Attended

variable {φ : Thread ι n → Phase n} {s : Shared (names ι n E) (Plant ι n E)}
  {T : Tickets (Fin n) E}

theorem spawn (h : Attended queueSize φ s T) {v : Fin n} (habsent : φ (.worker v) = absent) :
    Attended queueSize (Function.update φ (.worker v) fresh) s T := by
  have hother : ∀ u, u ≠ .worker v → Function.update φ (.worker v) fresh u = φ u :=
    fun u hu => Function.update_of_ne hu _ _
  refine ⟨h.serving, ?_, ?_, ?_⟩
  · exact registered_update h.inQueue (fun _ => id) fun _ _ _ hfresh => absurd rfl hfresh
  · intro w hw hticket
    by_cases hwv : w = v
    · subst hwv
      simp [Unaware] at hw
    · rw [hother _ (by simpa using hwv)] at hw
      obtain ⟨u, hu⟩ := h.owed w hw hticket
      refine ⟨u, ?_⟩
      rw [hother]
      · exact hu
      · rintro rfl
        rw [habsent] at hu
        cases hu
  · intro u w hu
    by_cases huv : u = .worker v
    · subst huv
      rw [Function.update_self] at hu
      cases hu
    · rw [hother u huv] at hu
      exact h.added u w hu

/-- A client that begins a call owes nothing. -/
theorem enter (h : Attended queueSize φ s T) {i : ι} {χ : Phase n} {m : Plant ι n E}
    (hφ : φ (.client i) = outside []) (hχ : χ = outside [] ∨ χ = startCalled)
    (hledger : m.ledger = s.memory.ledger)
    (hadded : m.added = Function.update s.memory.added (.client i) false) :
    Attended queueSize (Function.update φ (.client i) χ) { s with memory := m } T := by
  have hother : ∀ u, u ≠ .client i → Function.update φ (.client i) χ u = φ u :=
    fun u hu => Function.update_of_ne hu _ _
  have hnone : owes χ = [] := by
    rcases hχ with rfl | rfl <;> rfl
  refine ⟨?_, ?_, ?_, ?_⟩
  · rw [hledger]
    exact h.serving
  · rw [hledger]
    exact registered_update h.inQueue (fun _ => id) fun w hw => by cases hw
  · intro w hw hticket
    rw [hother _ (by simp)] at hw
    obtain ⟨u, hu⟩ := h.owed w hw hticket
    refine ⟨u, ?_⟩
    rw [hother]
    · exact hu
    · rintro rfl
      rw [hφ] at hu
      cases hu
  · intro u w hu
    rw [hadded]
    by_cases hui : u = .client i
    · subst hui
      rw [Function.update_self, hnone] at hu
      cases hu
    · rw [hother u hui] at hu
      rw [Function.update_of_ne hui]
      exact h.added u w hu

end Attended

namespace Serves

variable {φ : Thread ι n → Phase n} {s s' : Shared (names ι n E) (Plant ι n E)}

theorem act (h : Serves queueSize φ s) (hspawn : ∀ u, o ≠ .spawn u)
    (heffect : (servedProcessor ι n E).Effect s t o r s')
    (htrans : (protocol ι n E).trans t (φ t) o r = some ψ) :
    Serves queueSize (Function.update φ t ψ) s' := by
  obtain ⟨horderly, T, hattended⟩ := h
  have hturn := turn_of_step (horderly.attends t) (horderly.calm heffect) hspawn htrans
  exact ⟨horderly.turn hturn heffect, hattended.turn horderly hturn heffect⟩

theorem spawn (h : Serves queueSize φ s) {u : Thread ι n}
    (htrans : (protocol ι n E).trans t (φ t) (.spawn u) () = some ψ)
    (hfinal : (protocol ι n E).final u (φ u)) :
    Serves queueSize
      (Function.update (Function.update φ u ((protocol ι n E).born u (φ u))) t ψ) s := by
  obtain ⟨horderly, T, hattended⟩ := h
  obtain ⟨i, v, rfl, rfl, rfl, hopened, hv⟩ :=
    worker_of_spawn (E := E) (horderly.attends t) htrans
  have habsent := final_worker (horderly.attends _) hfinal
  have hborn : (protocol ι n E).born (.worker v) (φ (.worker v)) = fresh := by
    rw [habsent]
    rfl
  have hsame : Function.update (Function.update φ (.worker v) fresh) (.client i) (φ (.client i)) =
      Function.update φ (.worker v) fresh := Function.update_eq_self_iff.mpr (by simp)
  rw [hborn, hsame]
  exact ⟨horderly.spawn hopened hv habsent, T, hattended.spawn habsent⟩

theorem wake (h : Serves queueSize φ s) (c : Cond n) (t : Thread ι n) :
    Serves queueSize φ (s.sleep c ((s.asleep c).erase t)) := by
  obtain ⟨horderly, T, hattended⟩ := h
  refine ⟨horderly.wake c t, T, hattended.serving, hattended.inQueue, ?_, hattended.added⟩
  intro w hw
  apply hattended.owed w
  apply hw.mono
  intro hasleep
  by_cases hc : Cond.isWorkWaiting w = c
  · subst hc
    exact Finset.mem_of_mem_erase (by simpa [Shared.sleep] using hasleep)
  · simpa [Shared.sleep, hc] using hasleep

theorem enter (h : Serves queueSize φ s) {i : ι} {c : ClientCall E}
    (hc : c ≠ .stop ∧ c ≠ .terminate)
    (hfinal : (protocol ι n E).final (.client i) (φ (.client i))) :
    Serves queueSize
      (Function.update φ (.client i) ((protocol ι n E).enter (.client i) c (φ (.client i))))
      { s with memory := s.memory.enter (.client i) c } := by
  obtain ⟨horderly, T, hattended⟩ := h
  have hφ := final_client (horderly.attends _) hfinal
  have henter : (protocol ι n E).enter (.client i) c (φ (.client i)) = begin c := by
    rw [hφ]
    rfl
  have hbegin : (begin c : Phase n) = outside [] ∨ (begin c : Phase n) = startCalled := by
    cases c with
    | add entry | pause block | resume => exact .inl rfl
    | start => exact .inr rfl
    | stop => exact absurd rfl hc.1
    | terminate => exact absurd rfl hc.2
  rw [henter]
  refine ⟨horderly.enter hφ hbegin (by cases c <;> rfl), T, hattended.enter hφ hbegin ?_ ?_⟩
  · cases c <;> rfl
  · cases c <;> rfl

end Serves

theorem waiting_of_resume {w : Fin n} {φ ψ : Phase n}
    (hφ : Attends (.worker w : Thread ι n) φ)
    (h : step (.worker w) φ
      (.resume (.isWorkWaiting w) (.isWorkLock w) : Op (names ι n E)) () = some ψ) :
    φ = waiting := by
  cases φ <;> simp [step, resumes, Attends] at hφ h
  rfl

end Attendance

variable [DecidableEq ι]

open Attendance

/-- The processor is neither stopped nor terminated. -/
def Unstopped (_ : State (names ι n E) (Plant ι n E)) : Label (names ι n E) → Prop
  | .enter _ .stop => False
  | .enter _ .terminate => False
  | _ => True

instance (s : State (names ι n E) (Plant ι n E)) :
    (l : Label (names ι n E)) → Decidable (Unstopped s l)
  | .enter _ .stop => .isFalse id
  | .enter _ .terminate => .isFalse id
  | .enter _ (.add _) => .isTrue trivial
  | .enter _ .start => .isTrue trivial
  | .enter _ (.pause _) => .isTrue trivial
  | .enter _ .resume => .isTrue trivial
  | .step _ _ => .isTrue trivial
  | .spurious _ => .isTrue trivial

/-- No producer is between an `add` that was accepted and the end of its broadcast. -/
def AllTold (s : State (names ι n E) (Plant ι n E)) : Prop :=
  ∀ t, s.shared.memory.added t = true → (s.prog t).head = none

instance [Fintype ι] (s : State (names ι n E) (Plant ι n E)) : Decidable (AllTold s) :=
  inferInstanceAs (Decidable (∀ _, _ → _))

/-- The worker waits for work, and was not signalled. -/
def Blocked (s : State (names ι n E) (Plant ι n E)) (w : Fin n) : Prop :=
  (s.prog (.worker w)).head = some (.resume (.isWorkWaiting w) (.isWorkLock w)) ∧
    .worker w ∈ s.shared.asleep (.isWorkWaiting w)

instance (s : State (names ι n E) (Plant ι n E)) (w : Fin n) : Decidable (Blocked s w) :=
  inferInstanceAs (Decidable (_ ∧ _))

/-- In the runs of a processor that is not stopped, the phases serve the queue. -/
theorem serves_of_reachable {queueSize : Nat} (hsize : 0 < queueSize)
    (dataEntries : ProcessingQueueDataArray E) {s : State (names ι n E) (Plant ι n E)}
    (h : (((servedProcessor ι n E).system
      (newServedProcessor ι n queueSize dataEntries)).restrict Unstopped).Reachable s) :
    ∃ φ, (protocol ι n E).Obeys φ s ∧ Serves queueSize φ s.shared := by
  have hobeys : (protocol ι n E).Obeys atFirst (newServedProcessor ι n queueSize dataEntries) := by
    rintro (i | w)
    · exact .inr (.inl rfl)
    · exact .inr (.inl rfl)
  apply Protocol.invariant_of_effects obeyed (J := Serves queueSize) hobeys ?_ ?_ ?_ ?_ ?_ h
  · exact ⟨.new queueSize dataEntries, _, .new hsize dataEntries⟩
  · exact fun φ s t c o r shared ψ hJ _ hspawn heffect htrans => hJ.act hspawn heffect htrans
  · exact fun φ shared t u ψ hJ htrans hfinal => hJ.spawn htrans hfinal
  · exact fun φ s t c l ψ hJ _ _ => hJ.wake c t
  · intro φ s t c m p hJ hC hentry hfinal
    cases t with
    | worker w => cases hentry
    | client i =>
        obtain ⟨rfl, rfl⟩ : s.shared.memory.enter (.client i) c = m ∧ method c = p := by
          simpa [servedProcessor, threadCall] using hentry
        refine hJ.enter ⟨?_, ?_⟩ hfinal
        · rintro rfl
          exact hC
        · rintro rfl
          exact hC

/-- No wake-up is lost. -/
theorem no_lost_wakeup {queueSize : Nat} (hsize : 0 < queueSize)
    (dataEntries : ProcessingQueueDataArray E) {s : State (names ι n E) (Plant ι n E)}
    (h : (((servedProcessor ι n E).system
      (newServedProcessor ι n queueSize dataEntries)).restrict Unstopped).Reachable s)
    (htold : AllTold s) {w : Fin n} (hblocked : Blocked s w) :
    s.shared.memory.ledger.queue.slotIsEmpty w = true := by
  obtain ⟨φ, hobeys, horderly, T, hattended⟩ := serves_of_reachable hsize dataEntries h
  obtain ⟨hhead, hasleep⟩ := hblocked
  have hφ : φ (.worker w) = .waiting := by
    obtain ⟨ψ, hψ⟩ := (hobeys (.worker w)).trans_of_head hhead (by simp) ()
    exact waiting_of_resume (E := E) (horderly.attends _) hψ
  have hin := hattended.inQueue w (by simp [hφ]) (by simp [hφ])
  rw [hattended.serving.slotIsEmpty hin, decide_eq_true_iff]
  by_contra hticket
  obtain ⟨t, ht⟩ := hattended.owed w (.inr (.inr ⟨hφ, hasleep⟩)) (by omega)
  -- a thread that owes a signal is in a call
  obtain ⟨-, hfinal⟩ := (hobeys t).post_of_head (htold t (hattended.added t w ht))
  cases t with
  | client i =>
      rw [final_client (horderly.attends _) hfinal] at ht
      cases ht
  | worker v =>
      rw [final_worker (horderly.attends _) hfinal] at ht
      cases ht

/-- The worker is started and finds nothing; an entry is added, and the worker woken; it
takes the entry, and waits again. -/
def servedOnce : List (Label (names Unit 1 Nat)) :=
  let client (k : Nat) : List (Label (names Unit 1 Nat)) :=
    List.replicate k (.step (.client ()) .go)
  let worker (k : Nat) : List (Label (names Unit 1 Nat)) :=
    List.replicate k (.step (.worker 0) .go)
  let answered (a : Int) : List (Label (names Unit 1 Nat)) := [.step (.worker 0) (.answer a)]
  [.enter (.client ()) .start] ++ client 18 ++
    answered 0 ++ answered 0 ++ worker 2 ++ answered 0 ++ worker 1 ++ answered 0 ++ worker 5 ++
    [.enter (.client ()) (.add 5)] ++ client 6 ++ [.step (.client ()) (.answer 0)] ++ client 9 ++
    [.step (.client ()) (.wake (.worker 0))] ++ client 2 ++
    worker 6 ++ answered 1 ++ answered 0 ++ worker 3 ++ answered 0 ++ worker 1 ++ answered 0 ++
    worker 5

theorem no_lost_wakeup_of_servedOnce :
    ∃ s : State (names Unit 1 Nat) (Plant Unit 1 Nat),
      s.shared.memory.ledger.accepted.length = 1 ∧ Blocked s 0 ∧
      s.shared.memory.ledger.queue.slotIsEmpty 0 = true := by
  obtain ⟨s, hs, haccepted, htold, hblocked⟩ := (servedProcessor Unit 1 Nat).exists_of_follow
    (newServedProcessor Unit 1 4 (.uniform Nat 8)) Unstopped
    (fun s => s.shared.memory.ledger.accepted.length = 1 ∧ AllTold s ∧ Blocked s 0)
    servedOnce (by decide +kernel)
  exact ⟨s, haccepted, hblocked, no_lost_wakeup (by decide) _ hs htold hblocked⟩

end HPQueue
