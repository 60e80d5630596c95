/-! # Byte ranges of a text

A span is a half-open range of byte offsets. Spans are only ever joined: the merge of two spans is the
smallest one that covers both.
-/
namespace Listfile
set_option autoImplicit false

/-- The bytes from `start` up to, but not including, `stop`. -/
structure Span where
  start : Nat
  stop : Nat
deriving DecidableEq, Repr, Inhabited

namespace Span

def origin : Span := ⟨0, 0⟩

/-- The smallest span that covers both. -/
def merge (a b : Span) : Span := ⟨min a.start b.start, max a.stop b.stop⟩

@[simp] theorem start_merge (a b : Span) : (a.merge b).start = min a.start b.start := rfl

@[simp] theorem stop_merge (a b : Span) : (a.merge b).stop = max a.stop b.stop := rfl

end Span

end Listfile
