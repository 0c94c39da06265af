import StackCode.Text.Blank

/-! Input and output of a run: bytes not yet read, and bytes written to a sink that may be bounded. -/

namespace StackCode

structure Console where
  unread : List UInt8
  written : Array UInt8
  /-- How many bytes the sink takes in all; none if it takes any number. -/
  capacity : Option Nat
deriving DecidableEq

inductive ConsoleFailure where
  /-- A line that was read is no text. -/
  | invalidText
  /-- The sink did not take all that was to be written. -/
  | sinkFull
deriving DecidableEq

namespace ConsoleFailure

def message : ConsoleFailure → String
  | .invalidText => "stream did not contain valid UTF-8"
  | .sinkFull => "failed to write whole buffer"

end ConsoleFailure

namespace Console

def newline : UInt8 := 10

/-- The bytes up to the next line end, which belongs to them, or all there are; and the rest. -/
def splitLine (bytes : List UInt8) : List UInt8 × List UInt8 :=
  let rest := bytes.dropWhile (· ≠ newline)
  (bytes.takeWhile (· ≠ newline) ++ rest.take 1, rest.drop 1)

def isLineEnd (c : Char) : Bool := c == '\n' || c == '\r'

/-- Reads a line and strips all line ends from its end. At the end of the input the line is empty. The
bytes of the line are consumed even if they are no text. -/
def readLine (console : Console) : Except ConsoleFailure String × Console :=
  let (line, rest) := splitLine console.unread
  let result :=
    match String.fromUTF8? ⟨line.toArray⟩ with
    | some text => .ok (String.ofList (Text.dropLastWhile isLineEnd text.toList))
    | none => .error .invalidText
  (result, { console with unread := rest })

/-- Writes a text. If it does not fit as a whole, the bytes that fit are written. -/
def write : Console → String → Except ConsoleFailure Unit × Console
  | ⟨unread, written, capacity⟩, text =>
    let bytes := text.toUTF8.data
    let fits :=
      match capacity with
      | none => bytes.size
      | some capacity => min bytes.size (capacity - written.size)
    let result := if fits < bytes.size then .error .sinkFull else .ok ()
    (result, ⟨unread, written ++ bytes.extract 0 fits, capacity⟩)

/-- The sink has room for a text. -/
def Takes (console : Console) (text : String) : Prop :=
  ∀ capacity, console.capacity = some capacity → text.toUTF8.data.size ≤ capacity - console.written.size

theorem write_of_takes {console : Console} {text : String} (htakes : console.Takes text) :
    console.write text = (.ok (), { console with written := console.written ++ text.toUTF8.data }) := by
  obtain ⟨unread, written, capacity⟩ := console
  cases capacity with
  | none => simp only [write, Nat.lt_irrefl, if_false, Array.extract_size]
  | some capacity =>
      have hfits : min text.toUTF8.data.size (capacity - written.size) = text.toUTF8.data.size :=
        Nat.min_eq_left (htakes capacity rfl)
      simp only [write, hfits, Nat.lt_irrefl, if_false, Array.extract_size]

theorem write_of_full {console : Console} {text : String} {capacity : Nat} (hcapacity : console.capacity = some capacity)
    (hfull : capacity - console.written.size < text.toUTF8.data.size) :
    console.write text = (.error .sinkFull,
      { console with written := console.written ++ text.toUTF8.data.extract 0 (capacity - console.written.size) }) := by
  obtain ⟨unread, written, _⟩ := console
  cases hcapacity
  have hfits : min text.toUTF8.data.size (capacity - written.size) = capacity - written.size :=
    Nat.min_eq_right (Nat.le_of_lt hfull)
  simp only [write, hfits, if_pos hfull]

end Console
end StackCode
