import BinfmtSupport.Replacement

/-!
What a failed installation or removal leaves behind. Both disable the entry first and
take nothing back, so the entry can be gone while the old record stays, and an
installation that fails in its last step has already put the new record in place.
Nothing else can happen, whichever calls fail.
-/
namespace BinfmtSupport.Failure

open CText Kvhash Format Regstring Journal Stores Actions Loading Enabling Installing Replacement

def entriesNamed (k : Kernel) (name : Text) : List Entry :=
  k.entries.filter (fun e => e.name = name)

def Unchanged (s u : Store) (name : Text) : Prop :=
  u.file name = s.file name ∧ entriesNamed u.kernel name = entriesNamed s.kernel name

/-- The states in which a failed action on a name can leave the stores; the new record
is the one that was to be installed. -/
structure AfterFailure (s u : Store) (name : Text) (new : Option Binfmt) : Prop where
  record : u.file name = s.file name ∨
    (∃ b, new = some b ∧ u.file name = some b.contents) ∧ entriesNamed u.kernel name = []
  entry : entriesNamed u.kernel name = entriesNamed s.kernel name ∨
    entriesNamed u.kernel name = [] ∧ (s.file name).isSome = true ∧
      s.kernel.procExists name = true
  shown : u.kernel.procExists name = true → Unchanged s u name

section Entries

theorem entriesNamed_of_hidden {k : Kernel} {name : Text} (hreg : k.hasRegister = true)
    (hex : k.procExists name = false) : entriesNamed k name = [] := by
  simp only [Kernel.hasRegister, Bool.and_eq_true] at hreg
  simp only [Kernel.procExists, hreg.1, hreg.2, Bool.true_and, Bool.or_eq_false_iff,
    Kernel.hasEntry, List.any_eq_false] at hex
  rw [entriesNamed, List.filter_eq_nil_iff]
  exact hex.2.2

theorem entriesNamed_drop (name : Text) (s : Store) :
    entriesNamed ((Effect.dropEntry name).apply s).kernel name = [] := by
  simp [Effect.apply, entriesNamed, List.filter_filter]

/-- Dropping concerns the entries of a name only where procdir showed it. -/
theorem entriesNamed_dropped {name : Text} {s : Store} {drop : List Effect}
    (h : Dropped name s drop) (hfile : drop ≠ [] → (s.file name).isSome = true) :
    entriesNamed (replay drop s).kernel name = entriesNamed s.kernel name ∨
    entriesNamed (replay drop s).kernel name = [] ∧ (s.file name).isSome = true ∧
      s.kernel.procExists name = true := by
  rcases h.shape with ⟨rfl, -⟩ | ⟨rfl, hex⟩
  · exact Or.inl rfl
  · exact Or.inr ⟨entriesNamed_drop name s, hfile (by simp), hex⟩

theorem unchanged_of_status {s : Store} {name : Text} {es : List Effect}
    (h : es = [] ∨ es = [.status false]) : Unchanged s (replay es s) name := by
  rcases h with rfl | rfl <;> exact ⟨rfl, rfl⟩

theorem afterFailure_of_unchanged {s u : Store} {name : Text} {new : Option Binfmt}
    (h : Unchanged s u name) : AfterFailure s u name new :=
  ⟨Or.inl h.1, Or.inl h.2, fun _ => h⟩

/-- Where only file steps followed the drop, none of them on the file of the name. -/
theorem afterFailure_of_dropped {s : Store} {name : Text} {new : Option Binfmt}
    {drop es : List Effect} (hdrop : Dropped name s drop)
    (hfile : drop ≠ [] → (s.file name).isSome = true) (hes : ∀ e ∈ es, e.files ≠ [])
    (hkeep : (replay es (replay drop s)).file name = (replay drop s).file name) :
    AfterFailure s (replay (drop ++ es) s) name new := by
  have hkernel : (replay (drop ++ es) s).kernel = (replay drop s).kernel := by
    rw [replay_append]
    exact kernel_replay_of_files es _ hes
  have hsame : (replay (drop ++ es) s).file name = s.file name := by
    rw [replay_append, hkeep]
    simp only [Store.file, hdrop.admindir]
  refine ⟨Or.inl hsame, ?_, ?_⟩
  · rw [hkernel]
    exact entriesNamed_dropped hdrop hfile
  · rw [hkernel, hdrop.gone]
    simp

end Entries

section Actions
variable {env : Env} {name : Text} {s : Store} {m : Memory}

theorem install_afterFailure (htest : env.test = false) (b : Binfmt)
    (hret : ((actInstall env name (some b)).run s m).outcome = .returned false) :
    AfterFailure s (((actInstall env name (some b)).run s m).state s) name (some b) := by
  rcases actInstall_cases env htest name b s m with
    ⟨o, m', es, hrun, hes, -⟩ | ⟨m', drop, es, hrun, hdrop, hfile, hun, -⟩ |
    ⟨o, m', m₁, m₂, drop, es, hrun, hdrop, hfile, -, -, -, -, hen⟩
  · rw [hrun]
    exact afterFailure_of_unchanged (unchanged_of_status hes)
  · rw [hrun]
    have hun' := hun.congr hdrop.admindir
    exact afterFailure_of_dropped hdrop hfile hun.files (hun'.file name (tmpName_ne name))
  · rw [hrun] at hret ⊢
    change AfterFailure s (replay (drop ++ (moving s name b ++ es)) s) name (some b)
    rcases actEnableName_cases env htest name (replay (drop ++ moving s name b) s) m₁ with
      ⟨m₃, es₃, hrun₃, -⟩ | ⟨o₃, m₃, es₃, hrun₃, -, hset, hreg, hex, -⟩ |
      ⟨m₃, es₃, c, d, r₃, e₃, hrun₃, -⟩
    · rw [hen] at hrun₃
      cases hrun₃
      cases hret
    · rw [hen] at hrun₃
      cases hrun₃
      rw [← List.append_assoc, replay_append]
      have hentries : (replay es (replay (drop ++ moving s name b) s)).kernel.entries =
          (replay drop s).kernel.entries := by
        rw [entries_replay_of_setup es _ hset, replay_append,
          kernel_replay_of_files _ _ (fun e he => files_of_mem_moving he)]
      have hnone := entriesNamed_of_hidden hreg hex
      refine ⟨Or.inr ⟨⟨b, rfl, ?_⟩, hnone⟩, ?_, ?_⟩
      · rw [file_replay_of_notMem, file_replay_dropped_moving hdrop b, if_pos rfl]
        intro x hx
        rw [files_of_isSetup x (hset x hx)]
        simp
      · have heq : entriesNamed (replay es (replay (drop ++ moving s name b) s)).kernel name =
            entriesNamed (replay drop s).kernel name := by
          rw [entriesNamed, entriesNamed, hentries]
        rw [heq]
        exact entriesNamed_dropped hdrop hfile
      · rw [hex]
        simp
    · rw [hen] at hrun₃
      cases hrun₃
      cases hret

theorem remove_afterFailure (htest : env.test = false) (package : Text)
    (hret : ((actRemove env name package).run s m).outcome = .returned false) :
    AfterFailure s (((actRemove env name package).run s m).state s) name none := by
  rcases actRemove_cases env name package s m with ⟨o, m', hrun, hne⟩ | ⟨m₁, hfile, -, hrun⟩
  · rw [hrun] at hret
    exact absurd hret hne
  · rw [hrun] at hret ⊢
    rcases removeFormat_cases env htest name s m₁ with
      ⟨m', es, hrun', hes, -⟩ | ⟨m', drop, hrun', hdrop, -⟩ | ⟨m', drop, hrun', -⟩
    · rw [hrun']
      exact afterFailure_of_unchanged (unchanged_of_status hes)
    · rw [hrun']
      have hafter : AfterFailure s (replay (drop ++ []) s) name none :=
        afterFailure_of_dropped hdrop (fun _ => hfile) (by simp) rfl
      rwa [List.append_nil] at hafter
    · rw [hrun'] at hret
      cases hret

end Actions

section Examples

/-- The call at one time fails, after three bytes if it is a write. -/
def failingAt (time : ℕ) : Env :=
  { plainEnv with faults := fun t => if t = time then .error 3 else .none }

def refusing : Env := { plainEnv with accepts := fun _ => false }

end Examples
end BinfmtSupport.Failure
