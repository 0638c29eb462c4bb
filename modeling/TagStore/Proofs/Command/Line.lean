import TagStore.Command.Line
import TagStore.Proofs.Query.Reader
import TagStore.Proofs.Tag.Text

/-!
# Commands of command lines

The tag edits of a command that some command line gives have all been read from texts.
-/

namespace TagStore
namespace Command

/-- The tag edits of a command. -/
def edits : Command → List Tag.Edit
  | add _ _ edits => edits
  | tag _ _ edits => edits
  | remove _ _ => []
  | search _ => []
  | sync _ => []

/-- An edit has been read from a text. -/
def IsWritten (edit : Tag.Edit) : Prop := ∃ text, Tag.Edit.ofText? text = some edit

theorem bind_eq_ok_iff {ε α β : Type} {result : Except ε α} {next : α → Except ε β} {value : β} :
    result >>= next = .ok value ↔ ∃ first, result = .ok first ∧ next first = .ok value := by
  cases result <;> simp [bind, Except.bind]

theorem isWritten_of_editsOf {arguments : List String} {edits : List Tag.Edit}
    (read : editsOf arguments = .ok edits) : ∀ edit ∈ edits, IsWritten edit := by
  have found : arguments.mapM Tag.Edit.ofText = .ok edits := by
    rw [editsOf] at read
    cases found : arguments.mapM Tag.Edit.ofText with
    | error reason => cases found ▸ read
    | ok listed => exact congrArg _ (Except.ok.inj (found ▸ read))
  clear read
  induction arguments generalizing edits with
  | nil =>
      cases found
      exact List.forall_mem_nil _
  | cons argument rest induction =>
      rw [List.mapM_cons] at found
      obtain ⟨first, here, later⟩ := bind_eq_ok_iff.mp found
      obtain ⟨others, there, same⟩ := bind_eq_ok_iff.mp later
      cases same
      exact List.forall_mem_cons.mpr
        ⟨⟨argument, Tag.Edit.ofText_eq_ok_iff.mp here⟩, induction there⟩

theorem Form.isWritten_of_command {form : Form} {mode : EditMode} {arguments : List String}
    {command : Command} (read : form.command mode arguments = .ok command) :
    ∀ edit ∈ command.edits, IsWritten edit := by
  have none {edit : Tag.Edit} (member : edit ∈ ([] : List Tag.Edit)) : IsWritten edit := by
    cases member
  unfold Form.command at read
  split at read
  · obtain ⟨edits, found, rfl⟩ := Query.map_eq_ok_iff.mp read
    exact isWritten_of_editsOf found
  · obtain ⟨edits, found, rfl⟩ := Query.map_eq_ok_iff.mp read
    exact isWritten_of_editsOf found
  · cases read
    exact fun _ => none
  · cases read
    exact fun _ => none
  · cases read
    exact fun _ => none
  · cases read

namespace Invocation

theorem isWritten_of_ofForm {form : Form} {outer : Given} {preset : Option String}
    {arguments : List String} {invocation : Invocation}
    (read : ofForm form outer preset arguments = .ok invocation) :
    ∀ edit ∈ invocation.command.edits, IsWritten edit := by
  simp only [ofForm, bind, Except.bind] at read
  split at read
  · cases read
  · split at read
    · cases read
    · split at read
      · cases read
      · rename_i command found
        split at read
        · cases read
        · cases read
          exact Form.isWritten_of_command found

theorem isWritten_of_ofArgumentsAfter {preset : Option String} {outer : Given}
    {arguments : List String} {invocation : Invocation}
    (read : ofArgumentsAfter preset outer arguments = .ok invocation) :
    ∀ edit ∈ invocation.command.edits, IsWritten edit := by
  induction arguments generalizing outer with
  | nil => cases read
  | cons argument rest induction =>
      rw [ofArgumentsAfter] at read
      split at read
      · exact induction read
      · split at read
        · cases read
        · simp only [bind, Except.bind] at read
          split at read
          · cases read
          · exact induction read
        · cases read
        · split at read
          · exact isWritten_of_ofForm read
          · cases read

end Invocation

/-- Some command line gives the command. -/
def IsGiven (command : Command) : Prop :=
  ∃ preset arguments path, Invocation.ofArguments preset arguments = .ok ⟨path, command⟩

/-- The tag edits of a command line have been read from texts. -/
theorem IsGiven.isWritten {command : Command} (given : command.IsGiven) :
    ∀ edit ∈ command.edits, IsWritten edit := by
  obtain ⟨preset, arguments, path, read⟩ := given
  exact Invocation.isWritten_of_ofArgumentsAfter read

end Command
end TagStore
