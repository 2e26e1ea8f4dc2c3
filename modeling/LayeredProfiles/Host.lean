/-
What the library is run with: files that can be read, and a validator. Reading a file may fail with any error.
-/
import LayeredProfiles.Path
import LayeredProfiles.Schema

namespace LayeredProfiles

structure Host where
  /-- the octets of the file at a path -/
  read : Path → Except Thrown (List UInt8)
  validator : Validator

end LayeredProfiles
