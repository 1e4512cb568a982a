import HPQueue.Consumer.GrowingProcessor

/-!
# The workers of a queue that grows

What the workers do with the entries of a queue that producers resize when it is full.  The
threads and their mutexes are those of a processor whose queue does not grow; the line of
tickets that the queue stands for is kept by a resize, and with it what each worker was
given and has handled.

## Main results

* `Tracked.turn`, `Tracked.resize` — what a step preserves.
* `Grows.act`, `Grows.resize`, `Grows.spawn`, `Grows.wake`, `Grows.enter` — all of it, one for
  each kind of step.
-/

namespace HPQueue

open Library.Threads Prog

variable {ι : Type} {n : Nat} {E : Type}

namespace GrowingPlant

/-- What the queue gave to the worker, in order. -/
def handedTo (m : GrowingPlant ι n E) (w : Fin n) : List E :=
  (m.queue.handed.filter fun p => p.1 = w).map Prod.snd

/-- What the worker has handled, in order. -/
def handledBy (m : GrowingPlant ι n E) (w : Fin n) : List (Cell E) :=
  (m.handled.filter fun p => p.1 = w).map Prod.snd

theorem handledBy_handle (m : GrowingPlant ι n E) (w : Fin n) :
    (m.handle w).handledBy w =
      m.handledBy w ++ [m.queue.queue.queueData (m.queue.queue.readers w).index] := by
  simp [handledBy, handle]

theorem handledBy_handle_of_ne (m : GrowingPlant ι n E) {v w : Fin n} (h : w ≠ v) :
    (m.handle v).handledBy w = m.handledBy w := by
  simp [handledBy, handle, h.symm]

end GrowingPlant

namespace Attendance

open Phase

variable [DecidableEq ι] {t : Thread ι n} {φ ψ : Phase n} {o : Op (names ι n E)} {r : o.Result}

/-! ## The threads -/

/-- Only a query reaches the queue. -/
theorem growingPlant_of_effect {s s' : Shared (names ι n E) (GrowingPlant ι n E)}
    (h : (growingProcessor ι n E).Effect s t o r s') (hask : ∀ q, o ≠ .ask q) :
    s'.memory = { s.memory with control := written t s.memory.control o } := by
  cases h with
  | ask hreply => exact absurd rfl (hask _)
  | acquire | release | wait | resume | unheard | signal | broadcast | load | store | spawn => rfl

theorem effect_plant {s s' : Shared (names ι n E) (GrowingPlant ι n E)}
    (h : (growingProcessor ι n E).Effect s t o r s') (hask : ∀ q, o ≠ .ask q) :
    (servedProcessor ι n E).Effect (s.view GrowingPlant.plant) t o r
      (s'.view GrowingPlant.plant) := by
  cases h with
  | acquire hfree => exact .acquire hfree
  | release hheld => exact .release hheld
  | wait hheld => exact .wait hheld
  | resume hawake hfree => exact .resume hawake hfree
  | unheard hnone => exact .unheard hnone
  | signal hasleep => exact .signal hasleep
  | broadcast => exact .broadcast
  | load => exact .load
  | store => exact .store
  | ask hreply => exact absurd rfl (hask _)
  | spawn => exact .spawn

namespace Orderly

variable {φ : Thread ι n → Phase n} {s : Shared (names ι n E) (Plant ι n E)}

omit [DecidableEq ι] in
/-- The queue does not matter. -/
theorem memory (h : Orderly φ s) {m : Plant ι n E} (hm : m.control = s.memory.control) :
    Orderly φ { s with memory := m } where
  attends := h.attends
  locks := h.locks
  alive := by
    rw [hm]
    exact h.alive
  marked := by
    rw [hm]
    exact h.marked
  staffed := by
    rw [hm]
    exact h.staffed
  asleep := h.asleep

/-- A query. -/
theorem ask (h : Orderly φ s) {q : Query n E} {a : Int}
    (hturn : Turn t (φ t) (.ask q : Op (names ι n E)) a ψ) :
    Orderly (Function.update φ t ψ) s where
  attends := by
    intro u
    by_cases hut : u = t
    · subst hut
      simpa using hturn.attends (h.attends u)
    · simpa [hut] using h.attends u
  locks := by
    intro u l hl
    by_cases hut : u = t
    · subst hut
      rcases hturn.holds (by simpa using hl) with (hacquire | ⟨c, hresume⟩) | ⟨hφ, -⟩
      · cases hacquire
      · cases hresume
      · exact h.locks u l hφ
    · exact h.locks u l (by simpa [hut] using hl)
  alive := h.alive
  marked := hturn.marked h.marked h.staffed
  staffed := h.staffed.turn hturn trivial
  asleep := h.asleep

end Orderly

/-! ## The signals -/

omit [DecidableEq ι] in
/-- A worker stays registered, and is registered by the query that does so. -/
theorem Turn.registered_iff (h : Turn t φ o r ψ) (hask : ∀ q, o ≠ .ask q) :
    ψ ≠ absent ∧ ψ ≠ fresh ↔ φ ≠ absent ∧ φ ≠ fresh := by
  refine ⟨h.registered hask, fun hφ => ?_⟩
  rw [← not_or]
  intro hψ
  rw [Answering.unregistered_of_turn h hψ] at hψ
  exact not_or.mpr hφ hψ

/-- The readers in line are the workers that have registered, and a worker that does not
know of its entry is owed a signal. -/
structure Heard (φ : Thread ι n → Phase n) (s : Shared (names ι n E) (GrowingPlant ι n E))
    (T : Tickets (Fin n) E) : Prop where
  registered : ∀ w, w ∈ T.line ↔ φ (.worker w) ≠ absent ∧ φ (.worker w) ≠ fresh
  owed : ∀ w, Unaware (φ (.worker w)) (.worker w ∈ s.asleep (.isWorkWaiting w)) →
    T.ticket w < T.written → ∃ t, w ∈ owes (φ t)
  added : ∀ t w, w ∈ owes (φ t) → s.memory.added t = true

namespace Heard

variable {φ : Thread ι n → Phase n} {s s' : Shared (names ι n E) (GrowingPlant ι n E)}
  {T T' : Tickets (Fin n) E}

/-- A step that asks nothing. -/
theorem quiet (h : Heard φ s T) (horderly : Orderly φ (s.view GrowingPlant.plant))
    (hturn : Turn t (φ t) o r ψ) (hask : ∀ q, o ≠ .ask q)
    (heffect : (growingProcessor ι n E).Effect s t o r s') :
    Heard (Function.update φ t ψ) s' T := by
  have hplant := effect_plant heffect hask
  have hadded : s'.memory.added = s.memory.added := by
    rw [growingPlant_of_effect heffect hask]
  constructor
  · intro w
    rw [h.registered w]
    by_cases hwt : Thread.worker w = t
    · subst hwt
      rw [Function.update_self]
      exact (hturn.registered_iff hask).symm
    · rw [Function.update_of_ne hwt]
  · intro w hw hticket
    obtain ⟨u, hu⟩ := h.owed w (Orderly.unaware hturn hask hplant hw) hticket
    by_cases hut : u = t
    · subst hut
      refine ⟨u, ?_⟩
      rw [Function.update_self]
      by_cases hwu : Thread.worker w = u
      · subst hwu
        rw [owes_of_worker (horderly.attends _)] at hu
        cases hu
      · rw [Function.update_of_ne hwu] at hw
        exact horderly.told hturn hask hplant hw hu
    · exact ⟨u, by rwa [Function.update_of_ne hut]⟩
  · intro u w hu
    rw [hadded]
    by_cases hut : u = t
    · subst hut
      exact h.added u w (hturn.owes_subset hask (by simpa using hu))
    · exact h.added u w (by rwa [Function.update_of_ne hut] at hu)

/-- A query of a worker. -/
theorem query (h : Heard φ s T) {v : Fin n} {m : GrowingPlant ι n E}
    (howes : owes (φ (.worker v)) = [] ∧ owes ψ = []) (hregistered : ψ ≠ absent ∧ ψ ≠ fresh)
    (hψ : ψ ≠ marked ∧ ψ ≠ waiting) (hempty : ψ = empty → T'.written ≤ T'.ticket v)
    (hline : ∀ w, w ∈ T'.line ↔ w = v ∨ w ∈ T.line) (haccepted : T'.accepted = T.accepted)
    (hticket : ∀ w, w ≠ v → T'.ticket w = T.ticket w) (hadded : m.added = s.memory.added) :
    Heard (Function.update φ (.worker v) ψ) { s with memory := m } T' := by
  have hother : ∀ u, u ≠ .worker v → Function.update φ (.worker v) ψ u = φ u :=
    fun u hu => Function.update_of_ne hu _ _
  constructor
  · intro w
    rw [hline]
    by_cases hwv : w = v
    · subst hwv
      rw [Function.update_self]
      exact ⟨fun _ => hregistered, fun _ => .inl rfl⟩
    · rw [hother _ (by simpa using hwv), ← h.registered w]
      exact or_iff_right hwv
  · intro w hw hlt
    by_cases hwv : w = v
    · subst hwv
      rw [Function.update_self] at hw
      rcases hw with hw | hw | ⟨hw, -⟩
      · exact absurd hlt (Nat.not_lt.mpr (hempty hw))
      · exact absurd hw hψ.1
      · exact absurd hw hψ.2
    · rw [hother _ (by simpa using hwv)] at hw
      rw [hticket w hwv, Tickets.written, haccepted] at hlt
      obtain ⟨u, hu⟩ := h.owed w hw hlt
      refine ⟨u, ?_⟩
      rw [hother]
      · exact hu
      · rintro rfl
        rw [howes.1] at hu
        cases hu
  · intro u w hu
    show m.added u = true
    rw [hadded]
    by_cases huv : u = .worker v
    · subst huv
      rw [Function.update_self, howes.2] at hu
      cases hu
    · rw [hother u huv] at hu
      exact h.added u w hu

/-- An `add`, of an entry that is accepted or not. -/
theorem add (h : Heard φ s T) {i : ι} {ws : List (Fin n)} {accepted : Prop}
    [Decidable accepted] {m : GrowingPlant ι n E} (hφ : φ (.client i) = outside ws)
    (hline : T'.line = T.line) (hticket : T'.ticket = T.ticket)
    (hrefused : ¬ accepted → T'.written = T.written)
    (hadded : m.added = Function.update s.memory.added (.client i)
      (s.memory.added (.client i) || decide accepted)) :
    Heard (Function.update φ (.client i) (outside (if accepted then List.finRange n else ws)))
      { s with memory := m } T' := by
  have hother : ∀ {χ : Phase n} {u : Thread ι n}, u ≠ .client i →
      Function.update φ (.client i) χ u = φ u :=
    fun hu => Function.update_of_ne hu _ _
  constructor
  · intro w
    rw [hline, h.registered w, hother (by simp)]
  · intro w hw hlt
    rw [hother (by simp)] at hw
    by_cases haccepted : accepted
    · refine ⟨.client i, ?_⟩
      rw [Function.update_self, if_pos haccepted]
      exact List.mem_finRange w
    · rw [hrefused haccepted, hticket] at hlt
      obtain ⟨u, hu⟩ := h.owed w hw hlt
      refine ⟨u, ?_⟩
      by_cases hui : u = .client i
      · subst hui
        rw [Function.update_self, if_neg haccepted]
        rwa [hφ] at hu
      · rwa [hother hui]
  · intro u w hu
    show m.added u = true
    rw [hadded]
    by_cases hui : u = .client i
    · subst hui
      rw [Function.update_self] at hu ⊢
      by_cases haccepted : accepted
      · simp [haccepted]
      · rw [if_neg haccepted] at hu
        rw [h.added (.client i) w (by rwa [hφ]), Bool.true_or]
    · rw [Function.update_of_ne hui]
      rw [hother hui] at hu
      exact h.added u w hu

/-- A worker is created. -/
theorem spawn (h : Heard φ s T) {v : Fin n} (habsent : φ (.worker v) = absent) :
    Heard (Function.update φ (.worker v) fresh) s T := by
  have hother : ∀ u, u ≠ .worker v → Function.update φ (.worker v) fresh u = φ u :=
    fun u hu => Function.update_of_ne hu _ _
  constructor
  · intro w
    rw [h.registered w]
    by_cases hwv : w = v
    · subst hwv
      simp [habsent]
    · rw [hother _ (by simpa using hwv)]
  · intro w hw hlt
    by_cases hwv : w = v
    · subst hwv
      simp [Unaware] at hw
    · rw [hother _ (by simpa using hwv)] at hw
      obtain ⟨u, hu⟩ := h.owed w hw hlt
      refine ⟨u, ?_⟩
      rw [hother]
      · exact hu
      · rintro rfl
        rw [habsent] at hu
        cases hu
  · intro u w hu
    by_cases huv : u = .worker v
    · subst huv
      rw [Function.update_self] at hu
      cases hu
    · rw [hother u huv] at hu
      exact h.added u w hu

/-- A client that begins a call owes nothing. -/
theorem enter (h : Heard φ s T) {i : ι} {χ : Phase n} {m : GrowingPlant ι n E}
    (hφ : φ (.client i) = outside []) (hχ : χ = outside [] ∨ χ = startCalled)
    (hadded : m.added = Function.update s.memory.added (.client i) false) :
    Heard (Function.update φ (.client i) χ) { s with memory := m } T := by
  have hother : ∀ u, u ≠ .client i → Function.update φ (.client i) χ u = φ u :=
    fun u hu => Function.update_of_ne hu _ _
  have hnone : owes χ = [] := by
    rcases hχ with rfl | rfl <;> rfl
  constructor
  · intro w
    rw [h.registered w, hother _ (by simp)]
  · intro w hw hlt
    rw [hother _ (by simp)] at hw
    obtain ⟨u, hu⟩ := h.owed w hw hlt
    refine ⟨u, ?_⟩
    rw [hother]
    · exact hu
    · rintro rfl
      rw [hφ] at hu
      cases hu
  · intro u w hu
    show m.added u = true
    rw [hadded]
    by_cases hui : u = .client i
    · subst hui
      rw [Function.update_self, hnone] at hu
      cases hu
    · rw [hother u hui] at hu
      rw [Function.update_of_ne hui]
      exact h.added u w hu

theorem wake (h : Heard φ s T) (c : Cond n) (t : Thread ι n) :
    Heard φ (s.sleep c ((s.asleep c).erase t)) T := by
  refine ⟨h.registered, ?_, h.added⟩
  intro w hw
  apply h.owed w
  apply hw.mono
  intro hasleep
  by_cases hc : Cond.isWorkWaiting w = c
  · subst hc
    exact Finset.mem_of_mem_erase (by simpa [Shared.sleep] using hasleep)
  · simpa [Shared.sleep, hc] using hasleep

end Heard

/-! ## The entries -/

/-- What the worker was given it has handled, but for the entry it has in hand. -/
def Kept (φ : Phase n) (m : GrowingPlant ι n E) (T : Tickets (Fin n) E) (w : Fin n) : Prop :=
  if φ = taken then
    ∃ e, T.accepted[T.ticket w]? = some e ∧
      (m.handedTo w).map Cell.entry = m.handledBy w ++ [.entry e]
  else (m.handedTo w).map Cell.entry = m.handledBy w

namespace Kept

variable {φ φ' : Phase n} {m m' : GrowingPlant ι n E} {T T' : Tickets (Fin n) E} {w : Fin n}

omit [DecidableEq ι] in
theorem congr (h : Kept φ m T w) (hφ : φ' = taken ↔ φ = taken)
    (hhanded : m'.handedTo w = m.handedTo w) (hhandled : m'.handledBy w = m.handledBy w)
    (haccepted : T.accepted <+: T'.accepted) (hticket : T'.ticket w = T.ticket w) :
    Kept φ' m' T' w := by
  unfold Kept at h ⊢
  rw [hhanded, hhandled, hticket]
  by_cases htaken : φ = taken
  · rw [if_pos htaken] at h
    rw [if_pos (hφ.mpr htaken)]
    obtain ⟨e, he, hmap⟩ := h
    exact ⟨e, getElem?_of_prefix haccepted he, hmap⟩
  · rw [if_neg htaken] at h
    rwa [if_neg fun htaken' => htaken (hφ.mp htaken')]

omit [DecidableEq ι] in
/-- At most one entry is left. -/
theorem rest (h : Kept φ m T w) : ∃ rest : List (Cell E), rest.length ≤ 1 ∧
    (m.handedTo w).map Cell.entry = m.handledBy w ++ rest := by
  unfold Kept at h
  split at h
  · obtain ⟨e, -, hmap⟩ := h
    exact ⟨[.entry e], Nat.le_refl 1, hmap⟩
  · exact ⟨[], Nat.zero_le 1, by rw [h, List.append_nil]⟩

end Kept

/-- The queue, the workers that have registered with it, and what they do with their entries. -/
structure Tracked (φ : Thread ι n → Phase n) (s : Shared (names ι n E) (GrowingPlant ι n E))
    (k : Nat) (off : Int) (T : Tickets (Fin n) E) (given : List (Fin n × Nat)) : Prop where
  traces : GrowingQueue.Traces k off s.memory.queue T given
  heard : Heard φ s T
  kept : ∀ w, Kept (φ (.worker w)) s.memory T w

/-- There is a line that the queue stands for. -/
def Tracks (φ : Thread ι n → Phase n) (s : Shared (names ι n E) (GrowingPlant ι n E)) : Prop :=
  ∃ k off T given, Tracked φ s k off T given

namespace Tracked

variable {φ : Thread ι n → Phase n} {s s' : Shared (names ι n E) (GrowingPlant ι n E)} {k : Nat}
  {off : Int} {T T' : Tickets (Fin n) E} {given : List (Fin n × Nat)}

omit [DecidableEq ι] in
/-- While a worker has an entry in hand, its slot keeps it. -/
theorem inHand (h : Tracked φ s k off T given) {w : Fin n} (hφ : φ (.worker w) = taken) :
    ∃ e, (s.memory.handedTo w).map Cell.entry = s.memory.handledBy w ++ [.entry e] ∧
      s.memory.queue.queue.queueData (s.memory.queue.queue.readers w).index = .entry e := by
  have hkept := h.kept w
  rw [Kept, if_pos hφ] at hkept
  obtain ⟨e, he, hmap⟩ := hkept
  have hw : w ∈ T.line := (h.heard.registered w).mpr (by simp [hφ])
  refine ⟨e, hmap, ?_⟩
  rw [h.traces.represents.index w hw]
  exact h.traces.represents.stored _ e (h.traces.sound.base_le hw) he

/-- A step that asks nothing. -/
theorem quiet (h : Tracked φ s k off T given) (horderly : Orderly φ (s.view GrowingPlant.plant))
    (hturn : Turn t (φ t) o r ψ) (hask : ∀ q, o ≠ .ask q)
    (heffect : (growingProcessor ι n E).Effect s t o r s') :
    Tracked (Function.update φ t ψ) s' k off T given := by
  have hmemory := growingPlant_of_effect heffect hask
  constructor
  · rw [hmemory]
    exact h.traces
  · exact h.heard.quiet horderly hturn hask heffect
  · intro w
    apply (h.kept w).congr (Tallied.taken_update (hturn.taken_iff hask)) ?_ ?_
      (List.prefix_refl _) rfl
    · rw [hmemory]
      rfl
    · rw [hmemory]
      rfl

/-- A query of a worker, that concerns no other. -/
theorem query (h : Tracked φ s k off T given) {v : Fin n} {m : GrowingPlant ι n E}
    {given' : List (Fin n × Nat)} (htraces : GrowingQueue.Traces k off m.queue T' given')
    (hheard : Heard (Function.update φ (.worker v) ψ) { s with memory := m } T')
    (hhanded : ∀ w, w ≠ v → m.handedTo w = s.memory.handedTo w)
    (hhandled : ∀ w, w ≠ v → m.handledBy w = s.memory.handledBy w)
    (haccepted : T'.accepted = T.accepted) (hticket : ∀ w, w ≠ v → T'.ticket w = T.ticket w)
    (hkept : Kept ψ m T' v) :
    Tracked (Function.update φ (.worker v) ψ) { s with memory := m } k off T' given' := by
  refine ⟨htraces, hheard, fun w => ?_⟩
  by_cases hwv : w = v
  · subst hwv
    rwa [Function.update_self]
  · rw [Function.update_of_ne (by simpa using hwv)]
    refine (h.kept w).congr Iff.rfl (hhanded w hwv) (hhandled w hwv) ?_ (hticket w hwv)
    rw [haccepted]

/-- A worker registers. -/
theorem init (h : Tracked φ s k off T given) {v : Fin n} (hφ : φ (.worker v) = fresh)
    {queue : GrowingQueue (Fin n) E} (hrun : s.memory.queue.startAccess v = .ok queue) :
    Tracked (Function.update φ (.worker v) idle)
      { s with memory := { s.memory with queue := queue } } k off (T.join k v) given := by
  have hv : v ∉ T.line := by
    rw [h.heard.registered v]
    simp [hφ]
  have hout : (s.memory.queue.queue.readers v).inQueue = false := by
    rw [← Bool.not_eq_true, h.traces.represents.mem_iff]
    exact hv
  obtain ⟨u, hrun', -, hhanded, htraces⟩ := h.traces.startAccess hout
  obtain rfl := Except.ok.inj (hrun.symm.trans hrun')
  refine h.query htraces ?_ ?_ (fun _ _ => rfl) (by simp) ?_ ?_
  · exact h.heard.query (by simp [hφ, owes]) (by simp) (by simp) (by simp)
      (fun w => h.traces.sound.mem_join) (by simp) (fun w => Tickets.join_ticket_of_ne) rfl
  · intro w _
    rw [GrowingPlant.handedTo, GrowingPlant.handedTo, hhanded]
  · exact fun w => Tickets.join_ticket_of_ne
  · have hkept := h.kept v
    simp only [Kept, hφ] at hkept ⊢
    simpa [GrowingPlant.handedTo, hhanded, GrowingPlant.handledBy] using hkept

/-- A worker asks for an entry. -/
theorem remove (h : Tracked φ s k off T given) {v : Fin n} (hφ : φ (.worker v) = idle)
    {queue : GrowingQueue (Fin n) E} {result : Option E} {entry : Int}
    (hrun : s.memory.queue.remove v = .ok (queue, result))
    (hentry : result.isSome = decide (entry ≠ 0)) :
    ∃ given', Tracked (Function.update φ (.worker v) (if entry = 0 then idle else taken))
      { s with memory := { s.memory with queue := queue } } k off (T.ask k v) given' := by
  have hv : v ∈ T.line := (h.heard.registered v).mpr (by simp [hφ])
  obtain ⟨u, hrun', -, hhanded, htraces⟩ :=
    h.traces.remove (h.traces.represents.mem_iff.mpr hv)
  obtain ⟨rfl, rfl⟩ := Prod.mk.inj (Except.ok.inj (hrun.symm.trans hrun'))
  have hkept := h.kept v
  rw [Kept, if_neg (by simp [hφ])] at hkept
  refine ⟨_, h.query htraces ?_ ?_ (fun _ _ => rfl) (by simp) ?_ ?_⟩
  · refine h.heard.query ?_ ?_ ?_ ?_ ?_ (by simp) (fun w => Tickets.ask_ticket_of_ne) rfl
    · rw [hφ]
      split <;> exact ⟨rfl, rfl⟩
    · split <;> simp
    · split <;> simp
    · split <;> simp
    · intro w
      rw [h.traces.sound.mem_ask hv]
      exact ⟨.inr, fun hw => hw.elim (fun hwv => hwv ▸ hv) id⟩
  · intro w hwv
    have hothers : ((T.answer k v).toList.map fun e => (v, e)).filter (fun p => p.1 = w) = [] := by
      cases T.answer k v <;> simp [hwv.symm]
    rw [GrowingPlant.handedTo, hhanded, List.filter_append, hothers, List.append_nil]
    rfl
  · exact fun w => Tickets.ask_ticket_of_ne
  · unfold Kept
    cases hanswer : T.answer k v with
    | none =>
        have hzero : entry = 0 := by simpa [hanswer] using hentry
        rw [if_neg (by simp [hzero])]
        simpa [GrowingPlant.handedTo, GrowingPlant.handledBy, hhanded, hanswer] using hkept
    | some e =>
        have hsome : entry ≠ 0 := by simpa [hanswer] using hentry
        obtain ⟨-, -, hget, -⟩ := Tickets.ask_of_some hanswer
        rw [if_pos (by simp [hsome])]
        refine ⟨e, by rw [Tickets.ask_accepted, hget], ?_⟩
        have hlast : ({ s.memory with queue := queue } : GrowingPlant ι n E).handedTo v =
            s.memory.handedTo v ++ [e] := by
          simp [GrowingPlant.handedTo, hhanded, hanswer]
        rw [hlast, List.map_append, hkept]
        rfl

/-- A worker handles its entry. -/
theorem handle (h : Tracked φ s k off T given) {v : Fin n} (hφ : φ (.worker v) = taken) :
    Tracked (Function.update φ (.worker v) idle) { s with memory := s.memory.handle v } k off T
      given := by
  have hv : v ∈ T.line := (h.heard.registered v).mpr (by simp [hφ])
  obtain ⟨e, hmap, hslot⟩ := h.inHand hφ
  refine h.query h.traces ?_ (fun _ _ => rfl) (fun w => s.memory.handledBy_handle_of_ne) rfl
    (fun _ _ => rfl) ?_
  · refine h.heard.query (by simp [hφ, owes]) (by simp) (by simp) (by simp) ?_ rfl
      (fun _ _ => rfl) rfl
    exact fun w => ⟨.inr, fun hw => hw.elim (fun hwv => hwv ▸ hv) id⟩
  · rw [Kept, if_neg (by simp), GrowingPlant.handledBy_handle, hslot]
    exact hmap

/-- A worker looks at its slot. -/
theorem isWork (h : Tracked φ s k off T given) {v : Fin n} (hφ : φ (.worker v) = locked)
    {work : Int} (hwork : s.memory.queue.queue.slotIsEmpty v = decide (work = 0)) :
    Tracked (Function.update φ (.worker v) (if work = 0 then empty else locked))
      { s with memory := { s.memory with queue := s.memory.queue.isEmpty v } } k off T given := by
  have hv : v ∈ T.line := (h.heard.registered v).mpr (by simp [hφ])
  rw [h.traces.represents.slotIsEmpty_eq h.traces.sound hv] at hwork
  refine h.query (h.traces.isEmpty v) ?_ (fun _ _ => rfl) (fun _ _ => rfl) rfl (fun _ _ => rfl) ?_
  · refine h.heard.query ?_ ?_ ?_ ?_ ?_ rfl (fun _ _ => rfl) rfl
    · rw [hφ]
      split <;> exact ⟨rfl, rfl⟩
    · split <;> simp
    · split <;> simp
    · by_cases hzero : work = 0
      · intro _
        simpa [hzero] using hwork
      · simp [hzero]
    · exact fun w => ⟨.inr, fun hw => hw.elim (fun hwv => hwv ▸ hv) id⟩
  · refine (h.kept v).congr ?_ rfl rfl (List.prefix_refl _) rfl
    rw [hφ]
    split <;> simp

/-- A producer adds an entry. -/
theorem add (h : Tracked φ s k off T given) {i : ι} {ws : List (Fin n)} (e : E)
    (hφ : φ (.client i) = outside ws) :
    ∃ T', Tracked
      (Function.update φ (.client i) (outside
        (if 0 ≤ (s.memory.queue.queue.add e).2 then List.finRange n else ws)))
      { s with memory := { s.memory with
        queue := s.memory.queue.add e
        added := Function.update s.memory.added (.client i)
          (s.memory.added (.client i) || decide (0 ≤ (s.memory.queue.queue.add e).2)) } }
      k off T' given := by
  have hhanded : (s.memory.queue.add e).handed = s.memory.queue.handed := rfl
  have hworker : ∀ {χ : Phase n} {w : Fin n},
      Function.update φ (.client i) χ (.worker w) = φ (.worker w) :=
    Function.update_of_ne (by simp) _ _
  rcases h.traces.add e with ⟨haccepted, -, -, htraces⟩ | ⟨hrefused, hsame⟩
  · refine ⟨T.write e, htraces, ?_, fun w => ?_⟩
    · exact h.heard.add hφ rfl rfl (fun hnot => absurd haccepted hnot) rfl
    · rw [hworker]
      exact (h.kept w).congr Iff.rfl rfl rfl (List.prefix_append _ _) rfl
  · refine ⟨T, ?_, ?_, fun w => ?_⟩
    · show GrowingQueue.Traces k off (s.memory.queue.add e) T given
      rw [hsame]
      exact h.traces
    · exact h.heard.add hφ rfl rfl (fun _ => rfl) rfl
    · rw [hworker]
      exact (h.kept w).congr Iff.rfl rfl rfl (List.prefix_refl _) rfl

omit [DecidableEq ι] in
/-- A producer resizes the queue: nobody notices. -/
theorem resize (h : Tracked φ s k off T given) {size fuel : Nat} {queue : GrowingQueue (Fin n) E}
    (hclean : s.memory.queue.ResizesCleanly size)
    (hrun : s.memory.queue.resize fuel size = .ok queue) :
    ∃ off', Tracked φ { s with memory := { s.memory with queue := queue } } size off' T given := by
  obtain ⟨-, hhanded, off', htraces⟩ := h.traces.resize hclean hrun
  refine ⟨off', htraces, ⟨h.heard.registered, h.heard.owed, h.heard.added⟩, fun w => ?_⟩
  refine (h.kept w).congr Iff.rfl ?_ rfl (List.prefix_refl _) rfl
  rw [GrowingPlant.handedTo, GrowingPlant.handedTo, hhanded]

/-- What one step preserves, if it does not resize the queue. -/
theorem turn (h : Tracked φ s k off T given) (horderly : Orderly φ (s.view GrowingPlant.plant))
    (hturn : Turn t (φ t) o r ψ) (heffect : (growingProcessor ι n E).Effect s t o r s') :
    Tracks (Function.update φ t ψ) s' := by
  by_cases hask : ∀ q, o ≠ .ask q
  · exact ⟨_, _, _, _, h.quiet horderly hturn hask heffect⟩
  · obtain ⟨q, rfl⟩ := not_forall_not.mp hask
    cases heffect with
    | @ask _ a m hreply =>
        replace hreply := GrowingPlant.replies_of_reply hreply
        generalize hφ : φ t = χ at hturn
        cases hturn with
        | @works v _ ht hturn =>
            subst ht
            cases hturn with
            | init a =>
                cases hreply with
                | init hrun a => exact ⟨_, _, _, _, h.init hφ hrun⟩
            | remove entry =>
                cases hreply with
                | remove hrun hentry => exact ⟨_, _, _, h.remove hφ hrun hentry⟩
            | handle =>
                cases hreply with
                | handle => exact ⟨_, _, _, _, h.handle hφ⟩
            | isWork work =>
                cases hreply with
                | isWork hwork => exact ⟨_, _, _, _, h.isWork hφ hwork⟩
        | produces ht hturn =>
            subst ht
            cases hturn with
            | add ws e =>
                cases hreply with
                | add =>
                    obtain ⟨T', hadd⟩ := h.add e hφ
                    exact ⟨_, _, _, _, hadd⟩
        | opens ht hturn => cases hturn
        | stays hplain =>
            rw [← hφ, Function.update_eq_self]
            cases hreply with
            | isMaxSize | started => exact ⟨_, _, _, _, h⟩
            | add | resize | init | finalize | remove | handle | isWork => cases hplain

end Tracked

/-! ## All of it -/

/-- Where the threads are, and what that says of the queue. -/
def Grows (φ : Thread ι n → Phase n) (s : Shared (names ι n E) (GrowingPlant ι n E)) : Prop :=
  Orderly φ (s.view GrowingPlant.plant) ∧ Tracks φ s

namespace Grows

variable {φ : Thread ι n → Phase n} {s s' : Shared (names ι n E) (GrowingPlant ι n E)}

theorem new {queueSize : Nat} (hsize : 2 ≤ queueSize)
    (dataEntries : ProcessingQueueDataArray E) :
    Grows atFirst (newGrowingProcessor ι n queueSize dataEntries).shared := by
  refine ⟨.new queueSize dataEntries, _, _, _, _, .new hsize dataEntries, ?_, fun w => rfl⟩
  constructor
  · intro w
    simp [atFirst, Tickets.new]
  · intro w hw
    simp [atFirst, Unaware] at hw
  · rintro (i | v) w hw <;> cases hw

theorem calm (h : Grows φ s) (heffect : (growingProcessor ι n E).Effect s t o r s')
    (ho : o ≠ .ask .resize) : Calm (φ t) o r := by
  by_cases hask : ∀ q, o ≠ .ask q
  · exact h.1.calm (effect_plant heffect hask)
  · obtain ⟨q, rfl⟩ := not_forall_not.mp hask
    cases heffect with
    | ask hreply =>
        cases GrowingPlant.replies_of_reply hreply with
        | handle w => exact rfl
        | resize => exact absurd rfl ho
        | add | isMaxSize | started | init | finalize | remove | isWork => trivial

/-- An operation that does not resize the queue. -/
theorem act (h : Grows φ s) (hspawn : ∀ u, o ≠ .spawn u) (ho : o ≠ .ask .resize)
    (heffect : (growingProcessor ι n E).Effect s t o r s')
    (htrans : (growingProtocol ι n E).trans t (φ t) o r = some ψ) :
    Grows (Function.update φ t ψ) s' := by
  have hcalm := h.calm heffect ho
  obtain ⟨horderly, k, off, T, given, htracked⟩ := h
  have hturn : Turn t (φ t) o r ψ :=
    turn_of_step (horderly.attends t) hcalm hspawn ((growingStep_of_ne ho r).symm.trans htrans)
  refine ⟨?_, htracked.turn horderly hturn heffect⟩
  by_cases hask : ∀ q, o ≠ .ask q
  · exact horderly.turn hturn (effect_plant heffect hask)
  · obtain ⟨q, rfl⟩ := not_forall_not.mp hask
    cases heffect with
    | ask hreply =>
        apply (horderly.ask hturn).memory
        cases GrowingPlant.replies_of_reply hreply <;> rfl

/-- A resize. -/
theorem resize (h : Grows φ s) {rounds : Int}
    (hclean : s.memory.queue.ResizesCleanly s.memory.queue.queue.getNewQueueSize)
    (heffect : (growingProcessor ι n E).Effect s t (.ask .resize) rounds s')
    (htrans : (growingProtocol ι n E).trans t (φ t) (.ask .resize) rounds = some ψ) :
    Grows (Function.update φ t ψ) s' := by
  obtain ⟨horderly, k, off, T, given, htracked⟩ := h
  have hresizes : resizes (φ t) = some ψ := htrans
  have hattends := horderly.attends t
  obtain rfl : φ t = ψ := by
    unfold resizes at hresizes
    split at hresizes
    · rename_i hφ
      rw [hφ, ← Option.some.inj hresizes]
    · rename_i hφ
      rw [hφ, ← Option.some.inj hresizes]
    · cases hresizes
  rw [Function.update_eq_self]
  cases heffect with
  | @ask _ _ m hreply =>
      replace hreply : GrowingPlant.Replies t s.memory .resize rounds m :=
        GrowingPlant.replies_of_reply hreply
      cases hreply with
      | resize hrun =>
          obtain ⟨off', hresized⟩ := htracked.resize hclean hrun
          exact ⟨horderly.memory rfl, _, _, _, _, hresized⟩

theorem spawn (h : Grows φ s) {u : Thread ι n}
    (htrans : (growingProtocol ι n E).trans t (φ t) (.spawn u) () = some ψ)
    (hfinal : (growingProtocol ι n E).final u (φ u)) :
    Grows (Function.update (Function.update φ u ((growingProtocol ι n E).born u (φ u))) t ψ) s := by
  obtain ⟨horderly, k, off, T, given, htracked⟩ := h
  obtain ⟨i, v, rfl, rfl, rfl, hopened, hv⟩ :=
    worker_of_spawn (E := E) (horderly.attends t) htrans
  have habsent := final_worker (E := E) (horderly.attends _) hfinal
  have hborn : (growingProtocol ι n E).born (.worker v) (φ (.worker v)) = fresh := by
    rw [habsent]
    rfl
  have hsame : Function.update (Function.update φ (.worker v) fresh) (.client i) (φ (.client i)) =
      Function.update φ (.worker v) fresh := Function.update_eq_self_iff.mpr (by simp)
  rw [hborn, hsame]
  refine ⟨horderly.spawn hopened hv habsent, k, off, T, given, htracked.traces,
    htracked.heard.spawn habsent, fun w => ?_⟩
  refine (htracked.kept w).congr ?_ rfl rfl (List.prefix_refl _) rfl
  exact Tallied.taken_update (by simp [habsent])

theorem wake (h : Grows φ s) (c : Cond n) (t : Thread ι n) :
    Grows φ (s.sleep c ((s.asleep c).erase t)) := by
  obtain ⟨horderly, k, off, T, given, htracked⟩ := h
  exact ⟨horderly.wake c t, k, off, T, given, htracked.traces, htracked.heard.wake c t,
    htracked.kept⟩

theorem enter (h : Grows φ s) {i : ι} {c : ClientCall E} (hc : c ≠ .stop ∧ c ≠ .terminate)
    (hfinal : (growingProtocol ι n E).final (.client i) (φ (.client i))) :
    Grows (Function.update φ (.client i)
      ((growingProtocol ι n E).enter (.client i) c (φ (.client i))))
      { s with memory := s.memory.enter (.client i) } := by
  obtain ⟨horderly, k, off, T, given, htracked⟩ := h
  have hφ := final_client (E := E) (horderly.attends _) hfinal
  have henter : (growingProtocol ι n E).enter (.client i) c (φ (.client i)) = begin c := by
    rw [hφ]
    rfl
  have hbegin : (begin c : Phase n) = outside [] ∨ (begin c : Phase n) = startCalled := by
    cases c with
    | add entry | pause block | resume => exact .inl rfl
    | start => exact .inr rfl
    | stop => exact absurd rfl hc.1
    | terminate => exact absurd rfl hc.2
  rw [henter]
  refine ⟨horderly.enter hφ hbegin rfl, k, off, T, given, htracked.traces,
    htracked.heard.enter hφ hbegin rfl, fun w => ?_⟩
  rw [Function.update_of_ne (by simp)]
  exact htracked.kept w

end Grows

end Attendance

end HPQueue
