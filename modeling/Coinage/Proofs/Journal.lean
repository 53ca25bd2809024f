import Coinage.Journal

namespace Coinage

section Except

variable {ε α β : Type}

@[simp] theorem except_ok_bind (value : α) (next : α → Except ε β) :
    (Except.ok value >>= next) = next value := rfl

@[simp] theorem except_error_bind (error : ε) (next : α → Except ε β) :
    (Except.error error >>= next) = .error error := rfl

@[simp] theorem except_mapError_ok {δ : Type} (change : ε → δ) (value : α) :
    (Except.ok value).mapError change = .ok value := rfl

theorem except_bind_eq_ok {first : Except ε α} {next : α → Except ε β} {value : β} :
    first.bind next = .ok value ↔ ∃ middle, first = .ok middle ∧ next middle = .ok value := by
  cases first <;> simp [Except.bind]

theorem except_map_eq_ok {first : Except ε α} {change : α → β} {value : β} :
    first.map change = .ok value ↔ ∃ middle, first = .ok middle ∧ change middle = value := by
  cases first <;> simp [Except.map]

theorem except_toOption_eq_some {result : Except ε α} {value : α} :
    result.toOption = some value ↔ result = .ok value := by
  cases result <;> simp [Except.toOption]

@[simp] theorem except_toOption_bind (first : Except ε α) (next : α → Except ε β) :
    (first.bind next).toOption = first.toOption.bind fun value => (next value).toOption := by
  cases first <;> rfl

@[simp] theorem except_toOption_map (result : Except ε α) (change : α → β) :
    (result.map change).toOption = result.toOption.map change := by
  cases result <;> rfl

end Except

-- A failing step keeps the state that it leaves behind.
section State

variable {ε σ α β : Type} {first : ExceptT ε (StateM σ) α} {state next : σ}

theorem run_bind_of_ok {value : α} (h : first.run state = (.ok value, next))
    (second : α → ExceptT ε (StateM σ) β) :
    (first >>= second).run state = (second value).run next := by
  have hstep : (first >>= second).run state =
      ExceptT.bindCont second (first.run state).1 (first.run state).2 := rfl
  rw [hstep, h]
  rfl

theorem run_bind_of_error {error : ε} (h : first.run state = (.error error, next))
    (second : α → ExceptT ε (StateM σ) β) :
    (first >>= second).run state = (.error error, next) := by
  have hstep : (first >>= second).run state =
      ExceptT.bindCont second (first.run state).1 (first.run state).2 := rfl
  rw [hstep, h]
  rfl

end State

namespace Logged

variable {ε δ α β : Type}

theorem bind_assoc_of {γ : Type} (first : Logged ε α) (second : α → Logged ε β)
    (third : β → Logged ε γ) :
    first >>= second >>= third = first >>= fun value => second value >>= third := by
  change (first.bind second).bind third = first.bind fun value => (second value).bind third
  unfold bind
  cases first.result with
  | error failure => rfl
  | ok value =>
    dsimp only
    cases (second value).result with
    | error failure => rfl
    | ok middle => simp

theorem bind_pure_eq_map (change : α → β) (logged : Logged ε α) :
    (logged >>= fun value => pure (change value)) = change <$> logged := by
  obtain ⟨events, result⟩ := logged
  cases result with
  | error failure => rfl
  | ok value => exact congrArg (Logged.mk · _) (List.append_nil events)

theorem id_map_eq (logged : Logged ε α) : id <$> logged = logged := by
  obtain ⟨events, result⟩ := logged
  cases result <;> rfl

instance : LawfulMonad (Logged ε) :=
  .mk' _ id_map_eq (fun _ _ => rfl) bind_assoc_of (fun _ _ => rfl) (fun _ _ => rfl)
    (fun _ _ => rfl) bind_pure_eq_map (fun _ _ => rfl)

@[simp] theorem result_pure (value : α) : (pure value : Logged ε α).result = .ok value := rfl

@[simp] theorem result_map (change : α → β) (logged : Logged ε α) :
    (change <$> logged).result = logged.result.map change := rfl

@[simp] theorem result_bind (first : Logged ε α) (next : α → Logged ε β) :
    (first >>= next).result = first.result.bind fun value => (next value).result := by
  change (first.bind next).result = _
  unfold bind
  cases first.result <;> rfl

@[simp] theorem result_note (event : Event) : (note event : Logged ε Unit).result = .ok () := rfl

@[simp] theorem result_ofResult (result : Except ε α) : (ofResult result).result = result := rfl

@[simp] theorem events_pure (value : α) : (pure value : Logged ε α).events = [] := rfl

@[simp] theorem events_map (change : α → β) (logged : Logged ε α) :
    (change <$> logged).events = logged.events := rfl

@[simp] theorem events_note (event : Event) : (note event : Logged ε Unit).events = [event] := rfl

@[simp] theorem events_ofResult (result : Except ε α) : (ofResult result).events = [] := rfl

theorem bind_of_ok {first : Logged ε α} {value : α} (h : first.result = .ok value)
    (next : α → Logged ε β) :
    first >>= next = ⟨first.events ++ (next value).events, (next value).result⟩ := by
  change first.bind next = _
  rw [bind, h]

-- Nothing is done or noted after a failure.
theorem bind_of_error {first : Logged ε α} {failure : ε} (h : first.result = .error failure)
    (next : α → Logged ε β) : first >>= next = ⟨first.events, .error failure⟩ := by
  change first.bind next = _
  rw [bind, h]

theorem events_bind_of_ok {first : Logged ε α} {value : α} (h : first.result = .ok value)
    (next : α → Logged ε β) : (first >>= next).events = first.events ++ (next value).events := by
  rw [bind_of_ok h]

theorem events_bind_of_error {first : Logged ε α} {failure : ε}
    (h : first.result = .error failure) (next : α → Logged ε β) :
    (first >>= next).events = first.events := by
  rw [bind_of_error h]

theorem mem_events_bind {event : Event} {first : Logged ε α} {next : α → Logged ε β} :
    event ∈ (first >>= next).events ↔
      event ∈ first.events ∨ ∃ value, first.result = .ok value ∧ event ∈ (next value).events := by
  cases h : first.result with
  | error failure => simp [events_bind_of_error h]
  | ok value => simp [events_bind_of_ok h]

@[simp] theorem ofResult_ok (value : α) : ofResult (.ok value : Except ε α) = pure value := rfl

@[simp] theorem ofResult_error_bind (failure : ε) (next : α → Logged ε β) :
    ofResult (.error failure) >>= next = ofResult (.error failure) := rfl

-- Two second steps are as good as each other if they agree on what the first one
-- can give.
theorem bind_congr_of_ok {first : Logged ε α} {next other : α → Logged ε β}
    (h : ∀ value, first.result = .ok value → next value = other value) :
    first >>= next = first >>= other := by
  cases hfirst : first.result with
  | error failure => rw [bind_of_error hfirst, bind_of_error hfirst]
  | ok value => rw [bind_of_ok hfirst, bind_of_ok hfirst, h value hfirst]

section MapError

variable (change : ε → δ)

theorem result_mapError (logged : Logged ε α) :
    (logged.mapError change).result = logged.result.mapError change := rfl

@[simp] theorem mapError_pure (value : α) :
    (pure value : Logged ε α).mapError change = pure value := rfl

@[simp] theorem mapError_note (event : Event) :
    (note event : Logged ε Unit).mapError change = note event := rfl

@[simp] theorem mapError_ofResult (result : Except ε α) :
    (ofResult result).mapError change = ofResult (result.mapError change) := rfl

@[simp] theorem mapError_map (next : α → β) (logged : Logged ε α) :
    (next <$> logged).mapError change = next <$> logged.mapError change := by
  obtain ⟨events, result⟩ := logged
  cases result <;> rfl

theorem result_mapError_eq_ok_iff {logged : Logged ε α} {value : α} :
    (logged.mapError change).result = .ok value ↔ logged.result = .ok value := by
  obtain ⟨events, result⟩ := logged
  cases result with
  | error failure => constructor <;> intro h <;> cases h
  | ok other => simp [result_mapError]

@[simp] theorem mapError_bind (first : Logged ε α) (next : α → Logged ε β) :
    (first >>= next).mapError change =
      first.mapError change >>= fun value => (next value).mapError change := by
  obtain ⟨events, result⟩ := first
  cases result <;> rfl

end MapError

def fault? (logged : Logged ε α) : Option ε :=
  match logged.result with
  | .error failure => some failure
  | .ok _ => none

theorem fault?_eq_some_iff {logged : Logged ε α} {failure : ε} :
    logged.fault? = some failure ↔ logged.result = .error failure := by
  unfold fault?
  cases logged.result <;> simp

theorem fault?_eq_none_iff {logged : Logged ε α} :
    logged.fault? = none ↔ ∃ value, logged.result = .ok value := by
  unfold fault?
  cases logged.result <;> simp

end Logged

end Coinage
