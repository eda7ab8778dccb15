import Modularity.Fingerprint.Base62
import Modularity.Fingerprint.Xxh64

namespace Modularity.Fingerprint

def utf8 (s : String) : List UInt8 := s.toList.flatMap String.utf8EncodeChar

/-- The texts one after the other, a zero byte behind each to keep them apart. -/
def bytes (parts : List String) : List UInt8 := parts.flatMap fun part ↦ utf8 part ++ [0]

def ofParts (parts : List String) : String := Base62.encode (Xxh64.hash (bytes parts))

end Modularity.Fingerprint
