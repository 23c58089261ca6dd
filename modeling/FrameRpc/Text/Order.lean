/-!
# The order of texts

Texts are ordered by their code points, which is also the order of their UTF-8 bytes.
-/

namespace FrameRpc

/-- Texts in increasing order. -/
def increasing (texts : List String) : List String := texts.mergeSort fun a b => decide (a ≤ b)

end FrameRpc
