import ApiRecords.Emission.Run
import ApiRecords.Proofs.Files

/-!
Actions of the generator step by step: what a row of actions gives is what its last one gives, run
where the others left off, and what every action keeps of the files, the row keeps, failed or not.
-/

namespace ApiRecords.Action

variable {α β : Type} {a : Action α} {next : α → Action β} {r : Run}

/-- What an action gives. -/
def result (a : Action α) (r : Run) : Except Fault α := (a.run.run r).1

/-- What there is after an action, failed or not. -/
def after (a : Action α) (r : Run) : Run := (a.run.run r).2

theorem bind_of_ok {x : α} (h : a.result r = .ok x) :
    (a >>= next).result r = (next x).result (a.after r) ∧
      (a >>= next).after r = (next x).after (a.after r) := by
  unfold result after at *
  simp only [ExceptT.run_bind, StateT.run_bind]
  generalize StateT.run a.run r = p at h ⊢
  obtain ⟨first, s⟩ := p
  cases h
  exact ⟨rfl, rfl⟩

theorem bind_of_error {e : Fault} (h : a.result r = .error e) :
    (a >>= next).result r = .error e ∧ (a >>= next).after r = a.after r := by
  unfold result after at *
  simp only [ExceptT.run_bind, StateT.run_bind]
  generalize StateT.run a.run r = p at h ⊢
  obtain ⟨first, s⟩ := p
  cases h
  exact ⟨rfl, rfl⟩

theorem bind_result_ok {y : β} : (a >>= next).result r = .ok y ↔
    ∃ x, a.result r = .ok x ∧ (next x).result (a.after r) = .ok y := by
  cases h : a.result r with
  | ok x => simp [(bind_of_ok h).1]
  | error e => simp [(bind_of_error h).1]

theorem bind_result_error {e : Fault} : (a >>= next).result r = .error e ↔
    a.result r = .error e ∨ ∃ x, a.result r = .ok x ∧ (next x).result (a.after r) = .error e := by
  cases h : a.result r with
  | ok x => simp [(bind_of_ok h).1]
  | error e' => simp [(bind_of_error h).1]

@[simp] theorem after_pure (x : α) (r : Run) : (pure x : Action α).after r = r := rfl

@[simp] theorem files_notify (level : Level) (text : String) (r : Run) :
    ((notify level text).after r).files = r.files := rfl

/-! ### What is left of a run as it is -/

section

variable {γ : Type} {what : Run → γ}

/-- Whether an action leaves something of a run as it is, also when it fails. -/
def Leaves (what : Run → γ) (a : Action α) : Prop := ∀ r, what (a.after r) = what r

theorem Leaves.bind (ha : Leaves what a) (hnext : ∀ x, Leaves what (next x)) :
    Leaves what (a >>= next) := by
  intro r
  cases h : a.result r with
  | ok x => rw [(bind_of_ok h).2, hnext x, ha]
  | error e => rw [(bind_of_error h).2, ha]

end

/-! ### What is kept of the files -/

variable {I : FileSystem → Prop}

/-- Whether an action keeps a property of the files, also when it fails. -/
def Keeps (I : FileSystem → Prop) (a : Action α) : Prop := ∀ r, I r.files → I (a.after r).files

theorem keeps_of_files (h : ∀ r, (a.after r).files = r.files) : Keeps I a := by
  intro r hr
  rwa [h]

theorem keeps_pure (x : α) : Keeps I (pure x) := keeps_of_files fun _ => rfl

theorem keeps_lift (x : Except Fault α) : Keeps I (liftM x : Action α) := keeps_of_files fun _ => rfl

theorem keeps_get : Keeps I (get : Action Run) := keeps_of_files fun _ => rfl

theorem keeps_notify (level : Level) (text : String) : Keeps I (notify level text) :=
  keeps_of_files fun _ => rfl

theorem keeps_notifyAll (notices : List Notice) : Keeps I (notifyAll notices) :=
  keeps_of_files fun _ => rfl

theorem Keeps.bind (ha : Keeps I a) (hnext : ∀ r x, a.result r = .ok x → Keeps I (next x)) :
    Keeps I (a >>= next) := by
  intro r hr
  cases h : a.result r with
  | ok x =>
    rw [(bind_of_ok h).2]
    exact hnext r x h _ (ha r hr)
  | error e =>
    rw [(bind_of_error h).2]
    exact ha r hr

theorem onFiles_eq (change : FileSystem → FileSystem × Except FileFault Unit) (r : Run) :
    (onFiles change).result r = (change r.files).2.mapError Fault.file ∧
      ((onFiles change).after r).files = (change r.files).1 := by
  -- Only what the change makes of these files counts.
  have hresult : (onFiles change).result r = (onFiles fun _ => change r.files).result r := rfl
  have hafter : (onFiles change).after r = (onFiles fun _ => change r.files).after r := rfl
  rw [hresult, hafter]
  cases change r.files with
  | mk files outcome => cases outcome <;> exact ⟨rfl, rfl⟩

theorem keeps_onFiles {change : FileSystem → FileSystem × Except FileFault Unit}
    (h : ∀ fs, I fs → I (change fs).1) : Keeps I (onFiles change) := by
  intro r hr
  rw [(onFiles_eq change r).2]
  exact h _ hr

theorem keeps_write {p : Path} (hfolders : ∀ fs q, I fs → I (fs.makeFolders q).1)
    (hput : ∀ fs s, I fs → I (fs.putFile p s).1) (content : Tree) : Keeps I (write p content) := by
  apply (keeps_onFiles fun fs => hfolders fs p.parent).bind
  intro _ _ _
  cases content.text? with
  | none => exact keeps_of_files fun _ => rfl
  | some s => exact (keeps_onFiles fun fs => hput fs s).bind fun _ _ _ => keeps_notify _ _

theorem writeOnce_eq (p : Path) (content : Tree) (r : Run) :
    let step : Action Bool :=
      if r.files.exists? p then do
        notify .debug ("Kept existing " ++ p.text)
        return false
      else do
        write p content
        return true
    (writeOnce p content).result r = step.result r ∧ (writeOnce p content).after r = step.after r :=
  ⟨rfl, rfl⟩

/-- A path is left alone where something is known to be there. -/
theorem keeps_writeOnce {p : Path} (hfolders : ∀ fs q, I fs → I (fs.makeFolders q).1)
    (hput : (∀ fs, I fs → fs.exists? p) ∨ ∀ fs s, I fs → I (fs.putFile p s).1) (content : Tree) :
    Keeps I (writeOnce p content) := by
  intro r hr
  rw [(writeOnce_eq p content r).2]
  split
  · exact ((keeps_notify _ _).bind fun _ _ _ => keeps_pure false) r hr
  · rename_i hnot
    have hput := hput.resolve_left fun h => hnot (h r.files hr)
    exact ((keeps_write hfolders hput content).bind fun _ _ _ => keeps_pure true) r hr

theorem write_text (p : Path) (s : String) : write p (.text s) = (do
    onFiles (·.makeFolders p.parent)
    onFiles (·.putFile p s)
    notify .debug ("Wrote " ++ p.text)) := rfl

/-- How writing a file ends: as making its folders does, if that fails, or else as putting it does. -/
theorem write_parts (p : Path) (s : String) (r : Run) :
    let made := r.files.makeFolders p.parent
    (∃ fault, made.2 = .error fault ∧ (write p (.text s)).result r = .error (.file fault) ∧
        ((write p (.text s)).after r).files = made.1) ∨
      made.2 = .ok () ∧
        (write p (.text s)).result r = (made.1.putFile p s).2.mapError Fault.file ∧
        ((write p (.text s)).after r).files = (made.1.putFile p s).1 := by
  intro made
  obtain ⟨hresult, hafter⟩ := onFiles_eq (·.makeFolders p.parent) r
  rw [write_text]
  cases hmade : made.2 with
  | error fault =>
    have herror : (onFiles (·.makeFolders p.parent)).result r = .error (.file fault) := by
      rw [hresult, hmade]
      rfl
    rw [(bind_of_error herror).1, (bind_of_error herror).2]
    exact .inl ⟨fault, rfl, rfl, hafter⟩
  | ok _ =>
    have hok : (onFiles (·.makeFolders p.parent)).result r = .ok () := by
      rw [hresult, hmade]
      rfl
    rw [(bind_of_ok hok).1, (bind_of_ok hok).2]
    obtain ⟨hput, hafterPut⟩ :=
      onFiles_eq (·.putFile p s) ((onFiles (·.makeFolders p.parent)).after r)
    rw [hafter] at hput hafterPut
    refine .inr ⟨rfl, ?_⟩
    cases houtcome : (made.1.putFile p s).2 with
    | error fault =>
      rw [houtcome] at hput
      rw [(bind_of_error hput).1, (bind_of_error hput).2]
      exact ⟨rfl, hafterPut⟩
    | ok _ =>
      rw [houtcome] at hput
      rw [(bind_of_ok hput).1, (bind_of_ok hput).2]
      exact ⟨rfl, hafterPut⟩

/-- What was written is there. -/
theorem write_ok {p : Path} {s : String} (h : (write p (.text s)).result r = .ok ()) :
    ((write p (.text s)).after r).files.read p = .ok s := by
  rcases write_parts p s r with ⟨fault, -, herror, -⟩ | ⟨-, hresult, hafter⟩
  · cases h.symm.trans herror
  · rw [hresult] at h
    rw [hafter]
    refine (FileSystem.putFile_ok ?_).read
    generalize (FileSystem.putFile _ p s).2 = outcome at h ⊢
    cases outcome with
    | ok _ => rfl
    | error e => cases h

/-! ### Files written once -/

section

variable {p : Path}

/-- Writes a file once, with a notice of it if it was written. What it gives does not tell. -/
def once (p : Path) (s notice : String) (x : α) : Action α := do
  if ← writeOnce p (.text s) then notify .info notice
  return x

theorem once_of_exists (s notice : String) (x : α) (h : r.files.exists? p) :
    (once p s notice x).result r = .ok x ∧ ((once p s notice x).after r).files = r.files := by
  obtain ⟨hresult, hafter⟩ := writeOnce_eq p (.text s) r
  rw [if_pos h] at hresult hafter
  rw [once, (bind_of_ok hresult).1, (bind_of_ok hresult).2, hafter]
  exact ⟨rfl, rfl⟩

theorem once_of_not_exists (s notice : String) (x : α) (h : ¬ r.files.exists? p) :
    (once p s notice x).result r = ((write p (.text s)).result r).map (fun _ => x) ∧
      ((once p s notice x).after r).files = ((write p (.text s)).after r).files := by
  obtain ⟨hresult, hafter⟩ := writeOnce_eq p (.text s) r
  rw [if_neg h] at hresult hafter
  cases hwrite : (write p (.text s)).result r with
  | ok _ =>
    rw [(bind_of_ok hwrite).1] at hresult
    rw [(bind_of_ok hwrite).2] at hafter
    rw [once, (bind_of_ok hresult).1, (bind_of_ok hresult).2, hafter]
    exact ⟨rfl, rfl⟩
  | error fault =>
    rw [(bind_of_error hwrite).1] at hresult
    rw [(bind_of_error hwrite).2] at hafter
    rw [once, (bind_of_error hresult).1, (bind_of_error hresult).2, hafter]
    exact ⟨rfl, rfl⟩

/-- What is written once is written where nothing was. -/
theorem once_ok {s notice : String} {x y : α} (h : (once p s notice x).result r = .ok y) :
    y = x ∧ (r.files.exists? p ∧ ((once p s notice x).after r).files = r.files ∨
      ¬ r.files.exists? p ∧ (write p (.text s)).result r = .ok () ∧
        ((once p s notice x).after r).files = ((write p (.text s)).after r).files) := by
  by_cases hexists : r.files.exists? p
  · obtain ⟨hresult, hafter⟩ := once_of_exists s notice x hexists
    rw [hresult] at h
    exact ⟨(Except.ok.inj h).symm, .inl ⟨hexists, hafter⟩⟩
  · obtain ⟨hresult, hafter⟩ := once_of_not_exists s notice x hexists
    rw [hresult] at h
    obtain ⟨⟨⟩, hwrite, rfl⟩ := (map_ok_iff ..).mp h
    exact ⟨rfl, .inr ⟨hexists, hwrite, hafter⟩⟩

theorem keeps_once (hfolders : ∀ fs q, I fs → I (fs.makeFolders q).1)
    (hput : (∀ fs, I fs → fs.exists? p) ∨ ∀ fs s, I fs → I (fs.putFile p s).1)
    (s notice : String) (x : α) : Keeps I (once p s notice x) := by
  refine (keeps_writeOnce hfolders hput _).bind fun _ written _ => ?_
  cases written with
  | false => exact keeps_pure _
  | true => exact (keeps_notify _ _).bind fun _ _ _ => keeps_pure _

end

end ApiRecords.Action
