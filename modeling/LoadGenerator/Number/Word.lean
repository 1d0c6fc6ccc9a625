
namespace LoadGenerator.Word

abbrev count : Nat := 1 <<< 64

abbrev largest : Nat := count - 1

abbrev half : Nat := 1 <<< 63

end LoadGenerator.Word
