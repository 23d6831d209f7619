import DocxTemplate.World

/-! # Runs of jobs

    Jobs are put together from parts, and so is what is known about their runs.

    * `Job.Ends`: a job gives a result and leaves a world behind. One lemma for each way to
      make a job says when.
    * `Job.Fails`: a job stops at an error and leaves a world behind.
    * `Act.Keeps` and `Job.Keeps`: every run relates the world before it to the world behind
      it, and stops at certain errors only. This is known of a job if it is known of its parts.
-/

namespace DocxTemplate

variable {α β ε : Type}

/-! ## Runs -/

/-- What an act gives in a world, and the world it leaves. -/
def Act.outcome (act : Act α) (w : World) : α × World := act w

/-- What a job gives in a world, and the world it leaves. -/
def Job.outcome (job : Job α) (w : World) : Except Error α × World := Act.outcome job.run w

theorem Act.outcome_pure (a : α) (w : World) : outcome (pure a) w = (a, w) := rfl

theorem Act.outcome_ask (f : Disk → α) (w : World) : outcome (ask f) w = (f w.disk, w) := rfl

theorem Act.outcome_log (level : Level) (text : String) (w : World) :
    outcome (log level text) w = ((), { w with log := w.log ++ [⟨level, text⟩] }) := rfl

theorem Act.outcome_attempt (f : Disk → Disk × Except ε Unit) (w : World) :
    outcome (attempt f) w = ((f w.disk).2, { w with disk := (f w.disk).1 }) := rfl

theorem Act.outcome_bind (act : Act α) (f : α → Act β) (w : World) :
    outcome (act >>= f) w = outcome (f (outcome act w).1) (outcome act w).2 := rfl

theorem Act.outcome_ofJob (job : Job α) (w : World) : outcome (ofJob job) w = job.outcome w := rfl

namespace Job

theorem outcome_pure (a : α) (w : World) : outcome (pure a) w = (.ok a, w) := rfl

theorem outcome_throw (e : Error) (w : World) : outcome (throw e : Job α) w = (.error e, w) := rfl

theorem outcome_ofAct (act : Act α) (w : World) :
    outcome (ofAct act) w = (.ok (act.outcome w).1, (act.outcome w).2) := rfl

theorem outcome_bind (job : Job α) (f : α → Job β) (w : World) : (job >>= f).outcome w =
    match job.outcome w with
    | (.ok a, w₁) => (f a).outcome w₁
    | (.error e, w₁) => (.error e, w₁) := by
  have hrun : (job >>= f).outcome w = Act.outcome (ExceptT.bindCont f (job.outcome w).1)
      (job.outcome w).2 := rfl
  rw [hrun]
  obtain ⟨result, w₁⟩ := job.outcome w
  cases result <;> rfl

theorem outcome_guard (wrap : ε → Error) (act : Act (Except ε α)) (w : World) :
    (guard wrap act).outcome w = ((act.outcome w).1.mapError wrap, (act.outcome w).2) := by
  rw [guard, outcome_bind, outcome_ofAct]
  dsimp only
  cases (act.outcome w).1 <;> rfl

theorem outcome_change (wrap : ε → Error) (f : Disk → Except ε Disk) (w : World) :
    (guard wrap (Act.change f)).outcome w =
      match f w.disk with
      | .ok disk => (.ok (), { w with disk })
      | .error e => (.error (wrap e), w) := by
  rw [outcome_guard, Act.outcome, Act.change]
  cases f w.disk <;> rfl

theorem outcome_createDirectories (p : Path) (w : World) : (createDirectories p).outcome w =
    ((w.disk.createDirectories p).2.mapError (systemError p),
      { w with disk := (w.disk.createDirectories p).1 }) := by
  rw [createDirectories, outcome_guard, Act.outcome_attempt]

/-- What is done besides an error changes the world only. -/
theorem outcome_onError (job : Job α) (after : Act Unit) (w : World) :
    (job.onError after).outcome w =
      match job.outcome w with
      | (.ok a, w₁) => (.ok a, w₁)
      | (.error e, w₁) => (.error e, (after.outcome w₁).2) := by
  have hrun : (job.onError after).outcome w = Act.outcome (job.onError after).run w := rfl
  have hjob : Act.outcome (ExceptT.run job) w = job.outcome w := rfl
  rw [hrun, onError, ExceptT.run_mk, Act.outcome_bind, hjob]
  obtain ⟨result, w₁⟩ := job.outcome w
  cases result <;> rfl

/-- What is done in any case changes the world only. -/
theorem outcome_ensuring (job : Job α) (after : Act Unit) (w : World) :
    (job.ensuring after).outcome w =
      ((job.outcome w).1, (after.outcome (job.outcome w).2).2) := rfl

/-! ## Runs that end with a result -/

/-- From the world `w` a job gives the result `a` and leaves the world `w'`. -/
def Ends (job : Job α) (w : World) (a : α) (w' : World) : Prop := job.outcome w = (.ok a, w')

variable {job : Job α} {w w' : World} {a : α} {b : β}

theorem ends_of_fst (h : (job.outcome w).1 = .ok a) : Ends job w a (job.outcome w).2 := by
  unfold Ends
  rw [← h]

theorem ends_pure_iff {a' : α} : Ends (pure a' : Job α) w a w' ↔ a = a' ∧ w' = w := by
  rw [Ends, outcome_pure, Prod.mk.injEq, Except.ok.injEq]
  exact and_congr eq_comm eq_comm

theorem not_ends_throw {e : Error} : ¬ Ends (throw e : Job α) w a w' := by
  rw [Ends, outcome_throw]
  simp

theorem ends_bind_iff {f : α → Job β} : Ends (job >>= f) w b w' ↔
    ∃ a w₁, Ends job w a w₁ ∧ Ends (f a) w₁ b w' := by
  unfold Ends
  rw [outcome_bind]
  obtain ⟨result, w₁⟩ := job.outcome w
  cases result with
  | error e => simp
  | ok a =>
    constructor
    · intro h
      exact ⟨a, w₁, rfl, h⟩
    · rintro ⟨a', w₁', heq, h⟩
      rw [Prod.mk.injEq, Except.ok.injEq] at heq
      rw [heq.1, heq.2]
      exact h

theorem ends_guard_iff {wrap : ε → Error} {act : Act (Except ε α)} :
    Ends (guard wrap act) w a w' ↔ act.outcome w = (.ok a, w') := by
  rw [Ends, outcome_guard]
  obtain ⟨result, w₁⟩ := act.outcome w
  cases result with
  | error e => constructor <;> intro h <;> cases h
  | ok a' => constructor <;> intro h <;> cases h <;> rfl

theorem ends_ask_iff {f : Disk → α} : Ends (ask f) w a w' ↔ a = f w.disk ∧ w' = w := by
  rw [ask, Ends, outcome_ofAct, Act.outcome_ask, Prod.mk.injEq, Except.ok.injEq]
  exact and_congr eq_comm eq_comm

theorem ends_log_iff {level : Level} {text : String} {u : Unit} : Ends (log level text) w u w' ↔
    w' = { w with log := w.log ++ [⟨level, text⟩] } := by
  rw [log, Ends, outcome_ofAct, Act.outcome_log, Prod.mk.injEq]
  exact (and_iff_right rfl).trans eq_comm

theorem ends_ensuring_iff {after : Act Unit} :
    Ends (job.ensuring after) w a w' ↔ ∃ w₁, Ends job w a w₁ ∧ w' = (after.outcome w₁).2 := by
  unfold Ends
  rw [outcome_ensuring, Prod.mk.injEq]
  constructor
  · intro h
    exact ⟨_, Prod.ext h.1 rfl, h.2.symm⟩
  · intro h
    obtain ⟨w₁, hjob, hafter⟩ := h
    rw [hjob]
    exact ⟨rfl, hafter.symm⟩

/-- A change of the disk that may fail. -/
theorem ends_change_iff {wrap : ε → Error} {f : Disk → Except ε Disk} {u : Unit} :
    Ends (guard wrap (Act.change f)) w u w' ↔
      ∃ disk, f w.disk = .ok disk ∧ w' = { w with disk } := by
  rw [Ends, outcome_change]
  cases f w.disk with
  | error e => simp
  | ok disk => simp [eq_comm (a := w')]

theorem ends_write_iff {p : Path} {content : Content} {u : Unit} :
    Ends (write p content) w u w' ↔
      ∃ disk, w.disk.write p content = .ok disk ∧ w' = { w with disk } :=
  ends_change_iff

theorem ends_createDirectories_iff {p : Path} {u : Unit} : Ends (createDirectories p) w u w' ↔
    (w.disk.createDirectories p).2 = .ok () ∧
      w' = { w with disk := (w.disk.createDirectories p).1 } := by
  rw [createDirectories, ends_guard_iff, Act.outcome_attempt, Prod.mk.injEq, eq_comm (a := w')]

/-- What each step keeps of the elements that are done holds of all of them at the end. -/
theorem foldlM_induction {f : β → α → Job β} {P : List α → β → World → Prop} {l : List α}
    {b b' : β} {w w' : World}
    (step : ∀ done a b w b' w', a ∈ l → P done b w → Ends (f b a) w b' w' → P (done ++ [a]) b' w')
    (start : P [] b w) (h : Ends (l.foldlM f b) w b' w') : P l b' w' := by
  suffices hall : ∀ (rest done : List α) (b : β) (w : World), (∀ a ∈ rest, a ∈ l) → P done b w →
      Ends (rest.foldlM f b) w b' w' → P (done ++ rest) b' w' from
    hall l [] b w (fun _ ha => ha) start h
  intro rest
  induction rest with
  | nil =>
    intro done b w _ hdone h
    obtain ⟨rfl, rfl⟩ := ends_pure_iff.1 h
    rwa [List.append_nil]
  | cons a rest ih =>
    intro done b w hmem hdone h
    rw [List.foldlM_cons] at h
    obtain ⟨b₁, w₁, hfirst, hrest⟩ := ends_bind_iff.1 h
    have hstep := step done a b w b₁ w₁ (hmem a List.mem_cons_self) hdone hfirst
    have hnext := ih _ b₁ w₁ (fun a' ha' => hmem a' (List.mem_cons_of_mem _ ha')) hstep hrest
    rwa [List.append_assoc, List.singleton_append] at hnext

/-- Two walks along one list end in results that are related like those they start from. -/
theorem foldlM_agree {f g : β → α → Job β} {R : β → β → Prop} {l : List α} {b c b' c' : β}
    {w w' v v' : World}
    (step : ∀ a b c b' c' w w' v v', R b c → Ends (f b a) w b' w' → Ends (g c a) v c' v' → R b' c')
    (start : R b c) (h : Ends (l.foldlM f b) w b' w') (h' : Ends (l.foldlM g c) v c' v') :
    R b' c' := by
  induction l generalizing b c w v with
  | nil =>
    obtain ⟨rfl, -⟩ := ends_pure_iff.1 h
    obtain ⟨rfl, -⟩ := ends_pure_iff.1 h'
    exact start
  | cons a l ih =>
    rw [List.foldlM_cons] at h h'
    obtain ⟨b₁, w₁, hfirst, hrest⟩ := ends_bind_iff.1 h
    obtain ⟨c₁, v₁, hfirst', hrest'⟩ := ends_bind_iff.1 h'
    exact ih (step a b c b₁ c₁ w w₁ v v₁ start hfirst hfirst') hrest hrest'

end Job

/-! ## Runs that stop at an error -/

namespace Job

/-- From the world `w` a job stops at the error `e` and leaves the world `w'`. -/
def Fails (job : Job α) (w : World) (e : Error) (w' : World) : Prop :=
  job.outcome w = (.error e, w')

variable {job : Job α} {w w' : World} {e : Error}

theorem not_fails_pure {a : α} : ¬ Fails (pure a : Job α) w e w' := by
  rw [Fails, outcome_pure]
  simp

theorem fails_throw_iff {e' : Error} : Fails (throw e' : Job α) w e w' ↔ e = e' ∧ w' = w := by
  rw [Fails, outcome_throw, Prod.mk.injEq, Except.error.injEq]
  exact and_congr eq_comm eq_comm

/-- A job in two parts fails in the first or in the second one. -/
theorem fails_bind_iff {f : α → Job β} : Fails (job >>= f) w e w' ↔
    Fails job w e w' ∨ ∃ a w₁, Ends job w a w₁ ∧ Fails (f a) w₁ e w' := by
  unfold Fails Ends
  rw [outcome_bind]
  obtain ⟨result, w₁⟩ := job.outcome w
  cases result with
  | error e₁ => simp
  | ok a =>
    constructor
    · intro h
      exact Or.inr ⟨a, w₁, rfl, h⟩
    · rintro (h | ⟨a', w₁', heq, h⟩)
      · cases h
      · rw [Prod.mk.injEq, Except.ok.injEq] at heq
        rw [heq.1, heq.2]
        exact h

theorem not_fails_ask {f : Disk → α} : ¬ Fails (ask f) w e w' := by
  rw [ask, Fails, outcome_ofAct]
  simp

theorem not_fails_log {level : Level} {text : String} : ¬ Fails (log level text) w e w' := by
  rw [log, Fails, outcome_ofAct]
  simp

/-- A change of the disk that fails leaves it alone. -/
theorem fails_change_iff {wrap : ε → Error} {f : Disk → Except ε Disk} :
    Fails (guard wrap (Act.change f)) w e w' ↔
      ∃ fault, f w.disk = .error fault ∧ e = wrap fault ∧ w' = w := by
  rw [Fails, outcome_change]
  cases f w.disk with
  | error fault => simp [eq_comm (a := e), eq_comm (a := w')]
  | ok disk => simp

theorem fails_write_iff {p : Path} {content : Content} : Fails (write p content) w e w' ↔
    ∃ fault, w.disk.write p content = .error fault ∧ e = systemError p fault ∧ w' = w :=
  fails_change_iff

end Job

/-! ## What every run keeps -/

/-- Every run of an act relates the worlds before and behind it. -/
def Act.Keeps (R : World → World → Prop) (act : Act α) : Prop :=
  ∀ w, R w (act.outcome w).2

/-- Every run of a job relates the worlds before and behind it, and stops at certain errors
    only. -/
def Job.Keeps (R : World → World → Prop) (E : Error → Prop) (job : Job α) : Prop :=
  ∀ w, R w (job.outcome w).2 ∧ ∀ e, (job.outcome w).1 = .error e → E e

theorem Job.Keeps.of_ends {R : World → World → Prop} {E : Error → Prop} {job : Job α} {a : α}
    {w w' : World} (h : Keeps R E job) (hends : Ends job w a w') : R w w' := by
  have hkeeps := (h w).1
  rwa [hends] at hkeeps

theorem Job.Keeps.of_fails {R : World → World → Prop} {E : Error → Prop} {job : Job α} {e : Error}
    {w w' : World} (h : Keeps R E job) (hfails : Fails job w e w') : R w w' ∧ E e := by
  obtain ⟨hkeeps, herrors⟩ := h w
  rw [hfails] at hkeeps herrors
  exact ⟨hkeeps, herrors e rfl⟩

/-- A relation that holds of a run in which nothing happens, and of two runs in a row. -/
structure Chains (R : World → World → Prop) : Prop where
  refl : ∀ w, R w w
  trans : ∀ {w₁ w₂ w₃}, R w₁ w₂ → R w₂ w₃ → R w₁ w₃

section Keeps

variable {R : World → World → Prop} {E : Error → Prop}

namespace Act

theorem Keeps.pure (hR : Chains R) (a : α) : Keeps R (Pure.pure a : Act α) := fun w => hR.refl w

theorem Keeps.ask (hR : Chains R) (f : Disk → α) : Keeps R (Act.ask f) := fun w => hR.refl w

theorem Keeps.bind (hR : Chains R) {act : Act α} {f : α → Act β} (h : Keeps R act)
    (hf : ∀ a, Keeps R (f a)) : Keeps R (act >>= f) :=
  fun w => hR.trans (h w) (hf _ _)

/-- A change that fails does nothing. -/
theorem Keeps.change (hrefl : ∀ w, R w w) {ε : Type} {f : Disk → Except ε Disk}
    (hf : ∀ w disk, f w.disk = .ok disk → R w { w with disk }) : Keeps R (Act.change f) := by
  intro w
  rw [Act.outcome, Act.change]
  split
  · next disk hdisk => exact hf w disk hdisk
  · exact hrefl w

theorem Keeps.ofJob {job : Job α} (h : Job.Keeps R E job) : Keeps R (Act.ofJob job) :=
  fun w => (h w).1

end Act

namespace Job

theorem Keeps.pure (hR : Chains R) (a : α) : Keeps R E (Pure.pure a : Job α) :=
  fun w => ⟨hR.refl w, fun _ h => by cases h⟩

theorem Keeps.throw (hR : Chains R) {e : Error} (he : E e) : Keeps R E (throw e : Job α) := by
  refine fun w => ⟨hR.refl w, fun e' h => ?_⟩
  cases h
  exact he

/-- What stands behind an error is not run. -/
theorem Keeps.throw_bind (hR : Chains R) {e : Error} (he : E e) (f : α → Job β) :
    Keeps R E ((MonadExcept.throw e : Job α) >>= f) := by
  intro w
  rw [outcome_bind, outcome_throw]
  refine ⟨hR.refl w, fun e' h => ?_⟩
  cases h
  exact he

/-- The second part has to keep the relation only after results that the first part can give. -/
theorem Keeps.bind' (hR : Chains R) {job : Job α} {f : α → Job β} (h : Keeps R E job)
    (hf : ∀ w a w', Ends job w a w' → Keeps R E (f a)) : Keeps R E (job >>= f) := by
  intro w
  obtain ⟨hkeeps, herrors⟩ := h w
  rw [outcome_bind]
  cases hrun : job.outcome w with
  | mk result w₁ =>
    rw [hrun] at hkeeps herrors
    cases result with
    | error e =>
      refine ⟨hkeeps, fun e' he => ?_⟩
      cases he
      exact herrors e rfl
    | ok a =>
      obtain ⟨hnext, hnextErrors⟩ := hf w a w₁ hrun w₁
      exact ⟨hR.trans hkeeps hnext, hnextErrors⟩

theorem Keeps.bind (hR : Chains R) {job : Job α} {f : α → Job β} (h : Keeps R E job)
    (hf : ∀ a, Keeps R E (f a)) : Keeps R E (job >>= f) :=
  Keeps.bind' hR h fun _ a _ _ => hf a

theorem Keeps.ofAct {act : Act α} (h : Act.Keeps R act) : Keeps R E (ofAct act) :=
  fun w => ⟨h w, fun _ h => by cases h⟩

theorem Keeps.ask (hR : Chains R) (f : Disk → α) : Keeps R E (ask f) :=
  Keeps.ofAct (Act.Keeps.ask hR f)

theorem Keeps.guard {wrap : ε → Error} {act : Act (Except ε α)} (h : Act.Keeps R act)
    (hE : ∀ e, E (wrap e)) : Keeps R E (guard wrap act) := by
  intro w
  rw [outcome_guard]
  refine ⟨h w, fun e he => ?_⟩
  dsimp only at he
  cases hresult : (act.outcome w).1 with
  | ok a =>
    rw [hresult] at he
    cases he
  | error e' =>
    rw [hresult] at he
    cases he
    exact hE e'

theorem Keeps.foldlM (hR : Chains R) {f : β → α → Job β} {l : List α} (b : β)
    (h : ∀ b, ∀ a ∈ l, Keeps R E (f b a)) : Keeps R E (l.foldlM f b) := by
  induction l generalizing b with
  | nil => exact Keeps.pure hR b
  | cons a l ih =>
    rw [List.foldlM_cons]
    exact Keeps.bind hR (h b a List.mem_cons_self) fun b' =>
      ih b' fun b'' a' ha' => h b'' a' (List.mem_cons_of_mem _ ha')

end Job

end Keeps

end DocxTemplate
