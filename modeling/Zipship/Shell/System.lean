import Zipship.Tree.Layout

/-!
# A machine with a shell

The tree of a machine on which nothing is installed but a shell and the few programs that scripts
start, with the two devices that swallow or refuse what is written to them.
-/

namespace Zipship.Shell

/-- The directory where programs are. -/
def programDirectory : Loc := ["usr", "bin"]

/-- The programs of the machine. -/
def programNames : List Name :=
  ["cat", "chmod", "cp", "echo", "env", "false", "ln", "mkdir", "mv", "printf", "pwd", "rm",
    "rmdir", "sh", "sleep", "test", "touch", "true"]

/-- What a program that is not a script starts with. -/
def programContent : Bytes := [0x7f, 0x45, 0x4c, 0x46]

/-- The tree of the machine, as it is laid out. -/
def systemItems : List Tree.Item :=
  (programNames.map fun n => .file ⟨"/usr/bin/" ++ n⟩ programContent 0o755) ++
    [.link ⟨"/bin"⟩ ⟨"usr/bin"⟩, .dir ⟨"/dev"⟩, .dir ⟨"/tmp"⟩, .dir ⟨"/etc"⟩]

/-- The tree of the machine. -/
def system : Tree :=
  let t := Tree.placeAll [] systemItems .empty
  (t.put ["dev", "null"] (.device .null)).put ["dev", "full"] (.device .full)

/-- Where the shell looks for programs, and where every launch does. -/
def searchPath : String := "/usr/local/sbin:/usr/local/bin:/usr/sbin:/usr/bin:/sbin:/bin"

end Zipship.Shell
