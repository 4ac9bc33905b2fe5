/-!
# LineScript.Eval.Sink

Where printed text goes.  A `Sink` takes text or refuses it with a reason; a
`Buffer` is the sink that collects bytes, up to a limit if it has one.

* `Buffer.write_unlimited` — without a limit every text is taken;
* `Buffer.write_limited` — with a limit, what is above it is lost and reported.
-/

namespace LineScript

/-- Destinations of printed text.  A refusal gives its reason; it may have taken
a part of the text. -/
class Sink (σ : Type) where
  /-- Take a text. -/
  write (text : String) : EStateM String σ Unit

/-- A sink that collects bytes in memory. -/
structure Buffer where
  bytes : ByteArray := .empty
  limit : Option Nat := none

namespace Buffer

/-- Whether so many bytes fit. -/
def fits (limit : Option Nat) (size : Nat) : Bool := limit.all (size ≤ ·)

/-- The bytes up to the limit. -/
def cut (limit : Option Nat) (bytes : ByteArray) : ByteArray :=
  match limit with
  | some limit => bytes.extract 0 limit
  | none => bytes

/-- Why a full buffer refuses text. -/
def fullReason : String := "output limit reached"

/-- Add a text.  If it does not fit, the buffer keeps what is below its limit
and refuses. -/
def write (text : String) : EStateM String Buffer Unit
  | ⟨bytes, limit⟩ =>
    let all := bytes ++ text.toUTF8
    if fits limit all.size then .ok () ⟨all, limit⟩ else .error fullReason ⟨cut limit all, limit⟩

/-- Without a limit every text is taken. -/
theorem write_unlimited (text : String) (bytes : ByteArray) :
    write text ⟨bytes, none⟩ = .ok () ⟨bytes ++ text.toUTF8, none⟩ := rfl

/-- With a limit, what is above it is lost and reported. -/
theorem write_limited (text : String) (bytes : ByteArray) (limit : Nat) :
    write text ⟨bytes, some limit⟩ =
      if (bytes ++ text.toUTF8).size ≤ limit then .ok () ⟨bytes ++ text.toUTF8, some limit⟩
      else .error fullReason ⟨(bytes ++ text.toUTF8).extract 0 limit, some limit⟩ := by
  simp [write, fits, cut]

end Buffer

instance : Sink Buffer where
  write := Buffer.write

end LineScript
