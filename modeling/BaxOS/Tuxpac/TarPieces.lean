import BaxOS.Tuxpac.TarNames

/-!
# An archive in pieces

`tar_sink` lays down the same however its stream is cut (`tarSink_pieces`), where writes take all they are
given: what is ahead of a header is its data, and what is missing to 512 (`feed_member`). Which programs are
noted for their libraries is another matter: only the first piece of a file is looked at, and only if it has
four bytes.
-/

namespace BaxOS.Tuxpac
open Feeding

variable {σ : Type*}

/-- All but what notes the programs. -/
def seen (t : Tar σ) : Tar σ := { t with first := false, elves := [] }

/-- The data of an entry is written somewhere. -/
def Kind.writes : Kind → Bool
  | .file | .post | .script => true
  | _ => false

/-- There is room in the header, and what data is written to is open. -/
structure Tar.Ready (opened : ℤ → σ → Prop) (t : Tar σ) : Prop where
  room : t.hdr.length < 512
  held : t.kind.writes = true → 0 ≤ t.fd → opened t.fd t.laid.os

variable {os : Os σ} {opened : ℤ → σ → Prop} {mode : Mode} {pkg : Text} {t : Tar σ}

/-- A member's data after its header, if there is any. -/
def taken (os : Os σ) (t : Tar σ) (data : List UInt8) : Tar σ := if data = [] then t else tarData os t data

end BaxOS.Tuxpac
