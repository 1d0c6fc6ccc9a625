import LoadGenerator.Number.Word

namespace LoadGenerator.Clock

/-- What is left of a number in a signed word of 64 bits. -/
def word (n : Int) : Int := n.bmod Word.count

def perMilli : Int := 1000000

def ofMillis (ms : Int) : Int := word (ms * perMilli)

def toMillis (ns : Int) : Int := ns.tdiv perMilli

end LoadGenerator.Clock
