import Sparrow.Lib.Image

/-!
# Ring buffers

The data of `device/ioqueue.c` as one task sees it: a full buffer puts the producer to
sleep, an empty one the consumer.
-/

namespace Sparrow
set_option autoImplicit false

def ioqBufsize : Nat := 2048

/-- `struct ioqueue` without its lock and its two sleepers. -/
structure Ioqueue where
  buf : Image
  head : Nat
  tail : Nat

/-- `ioqueue_init` on a zeroed page. -/
def ioqueueInit : Ioqueue := ⟨fun _ => 0#8, 0, 0⟩

/-- `next_pos`. -/
def nextPos (pos : Nat) : Nat := (pos + 1) % ioqBufsize

/-- `ioq_length`. -/
def ioqLength (q : Ioqueue) : Nat :=
  if q.tail ≤ q.head then q.head - q.tail else ioqBufsize - (q.tail - q.head)

/-- `ioq_putchar`. -/
def ioqPutchar (q : Ioqueue) (byte : Byte) : Exec Ioqueue :=
  if nextPos q.head = q.tail then throw .blocked
  else return { q with buf := fun i => if i = q.head then byte else q.buf i, head := nextPos q.head }

/-- `ioq_getchar`. -/
def ioqGetchar (q : Ioqueue) : Exec (Byte × Ioqueue) :=
  if q.head = q.tail then throw .blocked
  else return (q.buf q.tail, { q with tail := nextPos q.tail })

/-- The loop of `pipe_write`. -/
def ioqPutAll : Ioqueue → List Byte → Exec Ioqueue
  | q, [] => return q
  | q, byte :: rest => do
    let q ← ioqPutchar q byte
    ioqPutAll q rest

/-- The loop of `pipe_read`. -/
def ioqGetAll : Nat → Ioqueue → Exec (List Byte × Ioqueue)
  | 0, q => return ([], q)
  | size + 1, q => do
    let (byte, q) ← ioqGetchar q
    let (bytes, q) ← ioqGetAll size q
    return (byte :: bytes, q)

end Sparrow
