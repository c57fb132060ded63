import ImportSuffix.Run
import ImportSuffix.Proofs.Disk.Writing

/-!
Texts that are written and read again.

What is written is what is read, also if the file was made for it, and writing what was read
changes nothing.  So a file that can be read can be written, whatever its path passes through.
-/

namespace ImportSuffix

open Text

section

variable {disk : Disk} {path : Path} {text : String}

theorem write_of_writeText (wrote : (writeText disk path text).result = .ok ()) :
    disk.write path text = .ok (writeText disk path text).disk := by
  cases written : disk.write path text with
  | error cause =>
      rw [writeText_of_error written] at wrote
      cases wrote
  | ok after => rw [writeText_of_write written]

theorem writeText_failed {failure : Failure}
    (failed : (writeText disk path text).result = .error failure) :
    (∃ cause, failure = .write path cause) ∧ (writeText disk path text).disk = disk := by
  cases written : disk.write path text with
  | error cause =>
      rw [writeText_of_error written] at failed ⊢
      cases failed
      exact ⟨⟨cause, rfl⟩, rfl⟩
  | ok after =>
      rw [writeText_of_write written] at failed
      cases failed

end

/-- Writing, then reading, and the other way round.  A text that could be written is read again,
from the file to which the path leads; that file, which is made where there is none, holds the
text, and all else is as it was.  If writing fails, it is the path that cannot be written, and the
disk is as it was.  A text that could be read is what the file holds; it can be written, and
then nothing changes. -/
theorem writeText_readText (disk : Disk) (path : Path) (text : String) :
    ((writeText disk path text).result = .ok () →
      readText (writeText disk path text).disk path = .ok text ∧
      ∃ location, disk.locate .place path = .ok location ∧
        (writeText disk path text).disk.locate .target path = .ok location ∧
        disk.Written (writeText disk path text).disk location (encode text)) ∧
    (∀ failure, (writeText disk path text).result = .error failure →
      (∃ cause, failure = .write path cause) ∧ (writeText disk path text).disk = disk) ∧
    (readText disk path = .ok text →
      (∃ location, disk.locate .target path = .ok location ∧
        disk.content? location = some (encode text)) ∧
      (writeText disk path text).result = .ok () ∧ (writeText disk path text).disk = disk) := by
  refine ⟨?_, fun _ => writeText_failed, ?_⟩
  · intro wrote
    have written := write_of_writeText wrote
    obtain ⟨location, place, result, led⟩ := Disk.written_of_write written
    exact ⟨readText_eq_ok_iff.mpr (Disk.read_of_write written), location, place, led, result⟩
  · intro readable
    have held := readText_eq_ok_iff.mp readable
    rw [writeText_of_write (Disk.write_of_read_self held)]
    exact ⟨Disk.read_eq_ok_iff.mp held, rfl, rfl⟩

/-- A file is made at the end of two links, the second of which leads to nothing. -/
example :
    let disk : Disk := ⟨.directory [(encode "a", .link (.ofText "d/b")),
      (encode "d", .directory [(encode "b", .link (.ofText "../c"))])], []⟩
    let writing := writeText disk (.ofText "a") "export {};\n"
    readText disk (.ofText "a") = .error (.read (.ofText "a") (.system .noEntry)) ∧
      writing.disk.content? [encode "c"] = some (encode "export {};\n") ∧
      readText writing.disk (.ofText "a") = .ok "export {};\n" := by decide +kernel

end ImportSuffix
