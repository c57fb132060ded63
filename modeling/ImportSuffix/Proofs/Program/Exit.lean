import ImportSuffix.Program
import ImportSuffix.Proofs.Run.Report
import ImportSuffix.Proofs.Settings.Acceptance
import ImportSuffix.Proofs.Survey.Skipped

/-!
How the program ends.

It reads its command line, asks for its working directory, checks its settings, and only then
runs.  Each of these can end it.  The status tells misuse from any other failure, and before the
run neither the disk has been touched nor anything been printed, except for the answer to a
question.
-/

namespace ImportSuffix

open Text CommandLine

/-- What the program prints if its command line is not carried out. -/
def CommandLine.Halt.answer : Halt → List Message
  | help => [.help]
  | version => [.version]
  | misuse _ => []

namespace Program

section

variable {words : List Bytes} {disk : Disk} {execution : Execution}

end

/-- A working directory that is gone is noticed before anything else. -/
example :
    let disk : Disk := ⟨.directory [(encode "p", .directory [(encode "index.ts",
      .file (encode "import a from './a';\n"))])], [encode "w"]⟩
    let execution := execute [encode "/p"] disk
    execution.status = failure ∧ execution.messages.map Message.output = [] ∧
      execution.complaint = some "IO error: No such file or directory (os error 2)." := by
  decide +kernel

end Program

end ImportSuffix
